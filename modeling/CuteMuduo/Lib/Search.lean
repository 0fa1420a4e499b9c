/-
  File:      CuteMuduo/Lib/Search.lean
  Subject:   SEARCHING A LIST FOR A PATTERN, and cutting it at every occurrence.

  * `search` -- the first position at which the pattern stands, the end of the list where it stands
    nowhere; `find` is `search` with the end taken for "not found";
  * `find_eq_some_iff`, `find_eq_none_iff` -- what `find` says, in terms of occurrences;
  * `find_append` -- what is found is still found, at the same place, when the list goes on;
  * `tokens` -- what stands in front of each occurrence, and the rest behind the last one;
  * `Drains` -- part of a stream has been cut off already; `Drains.append`, `Drains.next`: the
    stream may go on, and the next token may be cut off, in any order.
-/
import Mathlib.Data.List.Basic

namespace Search

variable {α : Type*} [DecidableEq α] {pat xs ys rest token : List α} {p : Nat}

/-- **The first position at which `pat` stands in the list**, or the list's end. -/
def search (pat : List α) : List α → Nat
  | [] => 0
  | x :: xs => if pat.isPrefixOf (x :: xs) then 0 else search pat xs + 1

/-- The first position at which `pat` stands, unless it is the end. -/
def find (pat xs : List α) : Option Nat :=
  if search pat xs = xs.length then none else some (search pat xs)

/-- `pat` stands in `xs` at position `p`. -/
def OccursAt (pat xs : List α) (p : Nat) : Prop := pat <+: xs.drop p

omit [DecidableEq α] in
theorem OccursAt.le (h : OccursAt pat xs p) (hpat : pat ≠ []) : p + pat.length ≤ xs.length := by
  have hlen := h.length_le
  have hpos := List.length_pos_of_ne_nil hpat
  rw [List.length_drop] at hlen
  omega

omit [DecidableEq α] in
/-- An occurrence stays one when the list goes on, and none comes in that lies inside. -/
theorem occursAt_append (h : p + pat.length ≤ xs.length) :
    OccursAt pat (xs ++ ys) p ↔ OccursAt pat xs p := by
  have hdrop : (xs ++ ys).drop p = xs.drop p ++ ys :=
    List.drop_append_of_le_length (by omega)
  unfold OccursAt
  rw [hdrop]
  refine ⟨fun ho => ?_, fun ho => ho.trans (List.prefix_append _ _)⟩
  exact List.prefix_of_prefix_length_le ho (List.prefix_append _ _)
    (by rw [List.length_drop]; omega)

omit [DecidableEq α] in
theorem occursAt_cons {x : α} : OccursAt pat (x :: xs) (p + 1) ↔ OccursAt pat xs p := Iff.rfl

/-- In front of what `search` says there is no occurrence. -/
theorem not_occursAt_of_lt (h : p < search pat xs) : ¬ OccursAt pat xs p := by
  induction xs generalizing p with
  | nil => exact absurd h (Nat.not_lt_zero _)
  | cons x xs ih =>
      unfold search at h
      split at h
      · exact absurd h (Nat.not_lt_zero _)
      · rename_i hno
        cases p with
        | zero => exact fun ho => hno (List.isPrefixOf_iff_prefix.mpr ho)
        | succ p => exact ih (Nat.lt_of_succ_lt_succ h)

/-- What `search` says is an occurrence, unless it is the end. -/
theorem occursAt_search (h : search pat xs ≠ xs.length) : OccursAt pat xs (search pat xs) := by
  induction xs with
  | nil => exact absurd rfl h
  | cons x xs ih =>
      unfold search at h ⊢
      split
      · rename_i hp
        exact List.isPrefixOf_iff_prefix.mp hp
      · rename_i hno
        rw [if_neg hno] at h
        exact occursAt_cons.mpr (ih fun e => h (congrArg Nat.succ e))

/-- **`find` finds the first occurrence.** -/
theorem find_eq_some_iff (hpat : pat ≠ []) :
    find pat xs = some p ↔ OccursAt pat xs p ∧ ∀ q < p, ¬ OccursAt pat xs q := by
  constructor
  · intro h
    unfold find at h
    split at h
    · cases h
    · rename_i hne
      cases h
      exact ⟨occursAt_search hne, fun _ hq => not_occursAt_of_lt hq⟩
  · rintro ⟨ho, hfirst⟩
    have hpos := List.length_pos_of_ne_nil hpat
    have hle := ho.le hpat
    have hge : ¬ p < search pat xs := fun hlt => not_occursAt_of_lt hlt ho
    have hne : search pat xs ≠ xs.length := by omega
    have hs := occursAt_search hne
    have heq : search pat xs = p :=
      Nat.le_antisymm (Nat.le_of_not_lt hge) (Nat.le_of_not_lt fun hlt => hfirst _ hlt hs)
    rw [find, if_neg hne, heq]

/-- **`find` finds nothing where there is no occurrence.** -/
theorem find_eq_none_iff (hpat : pat ≠ []) : find pat xs = none ↔ ∀ p, ¬ OccursAt pat xs p := by
  constructor
  · intro h p ho
    have hpos := List.length_pos_of_ne_nil hpat
    have hle := ho.le hpat
    unfold find at h
    split at h
    · rename_i he
      exact not_occursAt_of_lt (by omega) ho
    · cases h
  · intro h
    refine if_pos ?_
    by_cases he : search pat xs = xs.length
    · exact he
    · exact absurd (occursAt_search he) (h _)

/-- **What is found stays found**, at the same place, when the list goes on. -/
theorem find_append (hpat : pat ≠ []) (h : find pat xs = some p) :
    find pat (xs ++ ys) = some p := by
  obtain ⟨ho, hfirst⟩ := (find_eq_some_iff hpat).mp h
  have hle := ho.le hpat
  refine (find_eq_some_iff hpat).mpr ⟨(occursAt_append hle).mpr ho, fun q hq hoq => ?_⟩
  exact hfirst q hq ((occursAt_append (by omega)).mp hoq)

/-! ## Tokens -/

/-- The first token, and what stands behind the pattern that ends it. -/
def next (pat xs : List α) : Option (List α × List α) :=
  (find pat xs).map fun p => (xs.take p, xs.drop (p + pat.length))

/-- At most `fuel` tokens, and what is left. -/
def tokensUpTo (pat : List α) : Nat → List α → List (List α) × List α
  | 0, xs => ([], xs)
  | fuel + 1, xs => match next pat xs with
    | none => ([], xs)
    | some (token, rest) => (token :: (tokensUpTo pat fuel rest).1, (tokensUpTo pat fuel rest).2)

/-- **All tokens, and what is left.** There are no more than the list is long. -/
def tokens (pat xs : List α) : List (List α) × List α := tokensUpTo pat xs.length xs

theorem next_length (hpat : pat ≠ []) (h : next pat xs = some (token, rest)) :
    rest.length < xs.length := by
  obtain ⟨p, hp, e⟩ := Option.map_eq_some_iff.mp h
  cases e
  have hle := ((find_eq_some_iff hpat).mp hp).1.le hpat
  have hpos := List.length_pos_of_ne_nil hpat
  rw [List.length_drop]
  omega

/-- **The first token stays the first** when the list goes on. -/
theorem next_append (hpat : pat ≠ []) (h : next pat xs = some (token, rest)) :
    next pat (xs ++ ys) = some (token, rest ++ ys) := by
  obtain ⟨p, hp, e⟩ := Option.map_eq_some_iff.mp h
  cases e
  have hle := ((find_eq_some_iff hpat).mp hp).1.le hpat
  rw [next, find_append hpat hp, Option.map_some, List.take_append_of_le_length (by omega),
    List.drop_append_of_le_length hle]

/-- A token, the pattern and the rest are the list. -/
theorem next_join (hpat : pat ≠ []) (h : next pat xs = some (token, rest)) :
    token ++ pat ++ rest = xs := by
  obtain ⟨p, hp, e⟩ := Option.map_eq_some_iff.mp h
  cases e
  obtain ⟨tail, ht⟩ := ((find_eq_some_iff hpat).mp hp).1
  have hrest : xs.drop (p + pat.length) = tail := by
    rw [← List.drop_drop, ← ht, List.drop_left]
  rw [hrest, List.append_assoc, ht, List.take_append_drop]

/-- More fuel than the list is long makes no difference. -/
theorem tokensUpTo_of_le (hpat : pat ≠ []) {fuel : Nat} (h : xs.length ≤ fuel) :
    tokensUpTo pat fuel xs = tokens pat xs := by
  have hgen : ∀ n m (xs : List α), xs.length ≤ n → xs.length ≤ m →
      tokensUpTo pat n xs = tokensUpTo pat m xs := by
    intro n
    induction n with
    | zero =>
        intro m xs hn hm
        obtain rfl := List.eq_nil_of_length_eq_zero (Nat.le_zero.mp hn)
        cases m <;> rfl
    | succ n ih =>
        intro m xs hn hm
        cases m with
        | zero =>
            obtain rfl := List.eq_nil_of_length_eq_zero (Nat.le_zero.mp hm)
            rfl
        | succ m =>
            unfold tokensUpTo
            cases hx : next pat xs with
            | none => rfl
            | some tr =>
                have hlt := next_length hpat hx
                simp only [ih m tr.2 (by omega) (by omega)]
  exact hgen fuel xs.length xs h (Nat.le_refl _)

/-- Where nothing is found there are no tokens. -/
theorem tokens_of_none (h : next pat xs = none) : tokens pat xs = ([], xs) := by
  unfold tokens
  cases hn : xs.length with
  | zero => rfl
  | succ n => rw [tokensUpTo, h]

/-- **The tokens are the first one, and those of the rest.** -/
theorem tokens_of_next (hpat : pat ≠ []) (h : next pat xs = some (token, rest)) :
    tokens pat xs = (token :: (tokens pat rest).1, (tokens pat rest).2) := by
  have hlt := next_length hpat h
  obtain ⟨n, hn⟩ : ∃ n, xs.length = n + 1 := ⟨xs.length - 1, by omega⟩
  rw [tokens, hn, tokensUpTo, h]
  simp only [tokensUpTo_of_le hpat (show rest.length ≤ n by omega)]

theorem length_tokens_le (pat xs : List α) : (tokens pat xs).1.length ≤ xs.length := by
  have hgen : ∀ fuel (xs : List α), (tokensUpTo pat fuel xs).1.length ≤ fuel := by
    intro fuel
    induction fuel with
    | zero => exact fun _ => Nat.le_refl _
    | succ fuel ih =>
        intro xs
        unfold tokensUpTo
        split
        · exact Nat.zero_le _
        · exact Nat.succ_le_succ (ih _)
  exact hgen _ _

/-- **Tokens, each with the pattern behind it, and the rest are the list.** -/
theorem tokens_join (hpat : pat ≠ []) (xs : List α) :
    (tokens pat xs).1.flatMap (· ++ pat) ++ (tokens pat xs).2 = xs := by
  have hgen : ∀ fuel (xs : List α), (tokensUpTo pat fuel xs).1.flatMap (· ++ pat) ++
      (tokensUpTo pat fuel xs).2 = xs := by
    intro fuel
    induction fuel with
    | zero => exact fun _ => rfl
    | succ fuel ih =>
        intro xs
        unfold tokensUpTo
        cases hx : next pat xs with
        | none => rfl
        | some tr =>
            show (tr.1 :: (tokensUpTo pat fuel tr.2).1).flatMap (· ++ pat) ++ _ = xs
            rw [List.flatMap_cons, List.append_assoc, ih tr.2]
            exact next_join hpat hx
  exact hgen _ _

/-! ## A stream cut as it comes -/

/-- **Of the stream so far, `out` has been cut off and `content` is left**: however the stream goes
    on, its tokens are `out`, and then those of `content`. -/
def Drains (pat stream : List α) (out : List (List α)) (content : List α) : Prop :=
  ∀ ys, tokens pat (stream ++ ys) =
    (out ++ (tokens pat (content ++ ys)).1, (tokens pat (content ++ ys)).2)

variable {stream content : List α} {out : List (List α)}

theorem Drains.refl (pat stream : List α) : Drains pat stream [] stream := fun _ => rfl

/-- The stream goes on. -/
theorem Drains.append (h : Drains pat stream out content) (ys : List α) :
    Drains pat (stream ++ ys) out (content ++ ys) := by
  intro zs
  rw [List.append_assoc, List.append_assoc]
  exact h (ys ++ zs)

/-- The next token is cut off. -/
theorem Drains.next (hpat : pat ≠ []) (h : Drains pat stream out content)
    (hn : Search.next pat content = some (token, rest)) :
    Drains pat stream (out ++ [token]) rest := by
  intro ys
  rw [h ys, tokens_of_next hpat (next_append hpat hn), List.append_assoc]
  rfl

/-- What has been cut off is a beginning of the tokens, and the others are still to come. -/
theorem Drains.tokens (h : Drains pat stream out content) : Search.tokens pat stream =
    (out ++ (Search.tokens pat content).1, (Search.tokens pat content).2) := by
  have hnil := h []
  rwa [List.append_nil, List.append_nil] at hnil

/-- Nothing is lost: what has been cut off, with the pattern behind each, and what is left are the
    stream so far. -/
theorem Drains.join (hpat : pat ≠ []) (h : Drains pat stream out content) :
    out.flatMap (· ++ pat) ++ content = stream := by
  have hs := tokens_join hpat stream
  rw [h.tokens, List.flatMap_append, List.append_assoc, tokens_join hpat] at hs
  exact hs

end Search
