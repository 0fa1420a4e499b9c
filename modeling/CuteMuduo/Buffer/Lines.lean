/-
  File:      CuteMuduo/Buffer/Lines.lean
  Subject:   LINES OUT OF A `Buffer`: `FindCRLF` (buffer.cpp), and the loop every reader of a line
             protocol runs on it, with chunks coming in between.

  An extraction step takes the bytes from `Peek()` to the CR LF that `FindCRLF` has found, and
  `RetrieveUntil`s behind it. The indices of the buffer, and with them what `MakeSpace` and
  `RetrieveAll` do, are another matter in every run; the content is not, and on the content a step
  is `Search.next`. So the lines are those of the whole stream, however it was cut
  (`line_extraction`).
-/
import CuteMuduo.Buffer.Calls
import CuteMuduo.Lib.Search

namespace CuteMuduo

open Machine Search

def kCR : UInt8 := 13

def kLF : UInt8 := 10

def kCRLF : List UInt8 := [kCR, kLF]

namespace Buffer

/-- `Buffer::FindCRLF`: where the CR stands, counted from `Peek()`. `std::search` answers with
    `BeginWrite()` where it finds none. -/
def findCRLF (b : Buffer) : Option Nat :=
  if search kCRLF b.readable = b.readableBytes then none else some (search kCRLF b.readable)

/-- One round of `while ((p = FindCRLF()) != nullptr)`: the bytes from `Peek()` to `p`, and
    `RetrieveUntil(p + 2)`. Nothing where the loop ends. -/
def extractLine (b : Buffer) : Option (List UInt8 × Buffer) :=
  b.findCRLF.map fun p => ((b.buffer.drop b.readerIndex).take p, b.retrieveUntil (p + 2))

variable (b : Buffer)

theorem findCRLF_eq : b.findCRLF = find kCRLF b.readable := by
  rw [findCRLF, find, length_readable]

theorem kCRLF_ne_nil : kCRLF ≠ [] := List.cons_ne_nil _ _

theorem occursAt_kCRLF {xs : List UInt8} {p : Nat} :
    OccursAt kCRLF xs p ↔ xs[p]? = some kCR ∧ xs[p + 1]? = some kLF := by
  induction xs generalizing p with
  | nil => simp [OccursAt, kCRLF]
  | cons x xs ih =>
      cases p with
      | zero =>
          cases xs with
          | nil => simp [OccursAt, kCRLF, kCR, kLF]
          | cons y xs =>
              simp only [OccursAt, kCRLF, List.drop_zero, List.cons_prefix_cons, List.nil_prefix,
                and_true, List.getElem?_cons_zero, List.getElem?_cons_succ, Option.some.injEq]
              exact and_congr eq_comm eq_comm
      | succ p => exact ih

/-- **`FindCRLF` finds the first CR with an LF behind it**, both of them readable. -/
theorem findCRLF_eq_some_iff {p : Nat} : b.findCRLF = some p ↔
    (b.readable[p]? = some kCR ∧ b.readable[p + 1]? = some kLF) ∧
      ∀ q < p, ¬ (b.readable[q]? = some kCR ∧ b.readable[q + 1]? = some kLF) := by
  rw [findCRLF_eq, find_eq_some_iff kCRLF_ne_nil, occursAt_kCRLF]
  simp only [occursAt_kCRLF]

/-- **It answers null where there is none.** -/
theorem findCRLF_eq_none_iff : b.findCRLF = none ↔
    ∀ p, ¬ (b.readable[p]? = some kCR ∧ b.readable[p + 1]? = some kLF) := by
  rw [findCRLF_eq, find_eq_none_iff kCRLF_ne_nil]
  simp only [occursAt_kCRLF]

/-- **An extraction step is `Search.next` on the content.** -/
theorem extractLine_readable :
    b.extractLine.map (fun r => (r.1, r.2.readable)) = next kCRLF b.readable := by
  rw [extractLine, next, findCRLF_eq, Option.map_map]
  refine Option.map_congr fun p hp => ?_
  have hle := ((find_eq_some_iff kCRLF_ne_nil).mp hp).1.le kCRLF_ne_nil
  rw [length_readable] at hle
  have htake := b.take_drop_readerIndex (Nat.le_trans (Nat.le_add_right _ _) hle)
  show ((b.buffer.drop b.readerIndex).take p, (b.retrieve (p + 2)).readable) = _
  rw [htake, readable_retrieve]
  rfl

/-- A CR that is the last readable byte is not reported, whatever the vector holds behind it. -/
theorem findCRLF_ne_last {xs : List UInt8} (hr : b.readable = xs ++ [kCR]) :
    b.findCRLF ≠ some xs.length := by
  intro h
  have hlf := (b.findCRLF_eq_some_iff.mp h).1.2
  rw [hr, List.getElem?_eq_none (by rw [List.length_append]; exact Nat.le_refl _)] at hlf
  cases hlf

/-- **A CR LF cut in two is found when its LF comes in.** -/
theorem findCRLF_split {xs data : List UInt8} {c : Buffer} (hr : b.readable = xs ++ [kCR])
    (hn : b.findCRLF = none) (hc : c.readable = b.readable ++ kLF :: data) :
    c.findCRLF = some xs.length := by
  have hno := (find_eq_none_iff kCRLF_ne_nil).mp (b.findCRLF_eq.symm.trans hn)
  have hlen : b.readable.length = xs.length + 1 := by rw [hr, List.length_append]; rfl
  rw [findCRLF_eq, find_eq_some_iff kCRLF_ne_nil, hc]
  refine ⟨occursAt_kCRLF.mpr ⟨?_, ?_⟩, fun q hq ho => hno q ?_⟩
  · rw [List.getElem?_append_left (by omega), hr, List.getElem?_concat_length]
  · rw [← hlen, List.getElem?_append_right (Nat.le_refl _), Nat.sub_self]
    rfl
  · -- an earlier one would lie in the old content
    refine (occursAt_append ?_).mp ho
    show q + 2 ≤ b.readable.length
    omega

end Buffer

/-! ## Chunks and extraction steps, in any order -/

/-- A chunk comes in, by `Append` or by `ReadFd`, or a line is taken out. -/
inductive LineCall where
  | append (data : List UInt8)
  | readFd (data : List UInt8)
  | extract
  deriving DecidableEq, Repr

/-- The bytes that come in. -/
def LineCall.chunk : LineCall → List UInt8
  | .append data => data
  | .readFd data => data
  | .extract => []

/-- **One call**, with the lines taken out so far. `readv` returns no more than it is offered; an
    extraction step where `FindCRLF` answers null does nothing. -/
def lineStep (s : Buffer × List (List UInt8)) : LineCall → Option (Buffer × List (List UInt8))
  | .append data => some (s.1.append data, s.2)
  | .readFd data =>
    if data.length ≤ s.1.readCapacity then some (s.1.readFd data, s.2) else none
  | .extract => match s.1.extractLine with
    | some (line, b) => some (b, s.2 ++ [line])
    | none => some s

section Extraction

variable {s s' : Buffer × List (List UInt8)} {stream : List UInt8} {call : LineCall}

/-- **Every call keeps what has been cut off and what is left of the stream apart.** -/
theorem drains_step (h : Drains kCRLF stream s.2 s.1.readable) (hs : lineStep s call = some s') :
    Drains kCRLF (stream ++ call.chunk) s'.2 s'.1.readable := by
  cases call with
  | append data =>
      cases hs
      rw [Buffer.readable_append]
      exact h.append data
  | readFd data =>
      simp only [lineStep] at hs
      split at hs
      · cases hs
        rw [Buffer.readable_readFd]
        exact h.append data
      · cases hs
  | extract =>
      show Drains kCRLF (stream ++ []) s'.2 s'.1.readable
      rw [List.append_nil]
      simp only [lineStep] at hs
      split at hs
      · rename_i line b hl
        cases hs
        have hn := s.1.extractLine_readable
        rw [hl] at hn
        exact h.next Buffer.kCRLF_ne_nil hn.symm
      · cases hs
        exact h

/-- A sequence of calls. -/
theorem drains_exec (h : Drains kCRLF stream s.2 s.1.readable) (calls : List LineCall)
    (he : Machine.exec lineStep s calls = some s') :
    Drains kCRLF (stream ++ calls.flatMap LineCall.chunk) s'.2 s'.1.readable := by
  induction calls generalizing s stream with
  | nil =>
      cases he
      rw [List.flatMap_nil, List.append_nil]
      exact h
  | cons call calls ih =>
      obtain ⟨s₁, hs, he⟩ := Option.bind_eq_some_iff.mp he
      rw [List.flatMap_cons, ← List.append_assoc]
      exact ih (drains_step h hs) he

/-- Where the loop ends, there are no lines. -/
theorem of_extractLine_none {b : Buffer} (h : b.extractLine = none) :
    tokens kCRLF b.readable = ([], b.readable) ∧ b.findCRLF = none := by
  have hread := b.extractLine_readable
  rw [h] at hread
  exact ⟨tokens_of_none hread.symm, Option.map_eq_none_iff.mp h⟩

/-- Where it goes on, there is one, and those of what is left. -/
theorem of_extractLine_some {b b' : Buffer} {line : List UInt8}
    (h : b.extractLine = some (line, b')) : tokens kCRLF b.readable =
      (line :: (tokens kCRLF b'.readable).1, (tokens kCRLF b'.readable).2) := by
  have hread := b.extractLine_readable
  rw [h] at hread
  exact tokens_of_next Buffer.kCRLF_ne_nil hread.symm

/-- **Extraction steps to the end** take out the lines there are, and leave the rest. -/
theorem exec_extract (s : Buffer × List (List UInt8)) {k : Nat}
    (hk : (tokens kCRLF s.1.readable).1.length ≤ k) :
    ∃ b, Machine.exec lineStep s (List.replicate k .extract) =
        some (b, s.2 ++ (tokens kCRLF s.1.readable).1) ∧
      b.readable = (tokens kCRLF s.1.readable).2 ∧ b.findCRLF = none := by
  induction k generalizing s with
  | zero =>
      cases hl : s.1.extractLine with
      | none =>
          obtain ⟨ht, hf⟩ := of_extractLine_none hl
          rw [ht, List.append_nil]
          exact ⟨s.1, rfl, rfl, hf⟩
      | some r =>
          rw [of_extractLine_some hl] at hk
          exact absurd hk (Nat.not_succ_le_zero _)
  | succ k ih =>
      rw [List.replicate_succ]
      cases hl : s.1.extractLine with
      | none =>
          have hs : lineStep s .extract = some s := by
            simp only [lineStep, hl]
          have hk' : (tokens kCRLF s.1.readable).1.length ≤ k := by
            rw [(of_extractLine_none hl).1]
            exact Nat.zero_le _
          obtain ⟨b, he, hb⟩ := ih s hk'
          exact ⟨b, Option.bind_eq_some_iff.mpr ⟨s, hs, he⟩, hb⟩
      | some r =>
          have hs : lineStep s .extract = some (r.2, s.2 ++ [r.1]) := by
            simp only [lineStep, hl]
          rw [of_extractLine_some hl] at hk ⊢
          obtain ⟨b, he, hb⟩ := ih (r.2, s.2 ++ [r.1]) (Nat.le_of_succ_le_succ hk)
          refine ⟨b, Option.bind_eq_some_iff.mpr ⟨_, hs, ?_⟩, hb⟩
          rw [he, List.append_assoc]
          rfl

end Extraction

/-- **Line extraction does not depend on chunking.** Chunks come in by `Append` and `ReadFd`, with
    extraction steps between them in any order. Extracting on to the end, the lines are those, in
    the same order, and the remaining content is that, which a buffer of any size gives to which
    the whole stream is added first; the lines taken out so far, with their CR LF, and the content
    are the stream. `FindCRLF` answers with the first position at which CR and LF are both
    readable, and with null where there is none: a CR that is the last readable byte is not
    reported, and is found as soon as its LF comes in. -/
theorem line_extraction (initialSize : Nat) (calls : List LineCall) {b : Buffer}
    {lines : List (List UInt8)}
    (h : Machine.exec lineStep (.create initialSize, []) calls = some (b, lines)) :
    (∀ initialSize' k, (calls.flatMap LineCall.chunk).length ≤ k → ∃ b₁ b₂ all,
      Machine.exec lineStep (b, lines) (List.replicate k .extract) = some (b₁, all) ∧
      Machine.exec lineStep (.create initialSize', [])
        (.append (calls.flatMap LineCall.chunk) :: List.replicate k .extract) = some (b₂, all) ∧
      b₁.readable = b₂.readable ∧ b₁.findCRLF = none ∧ b₂.findCRLF = none) ∧
    lines.flatMap (· ++ kCRLF) ++ b.readable = calls.flatMap LineCall.chunk ∧
    (∀ p, b.findCRLF = some p ↔
      (b.readable[p]? = some kCR ∧ b.readable[p + 1]? = some kLF) ∧
        ∀ q < p, ¬ (b.readable[q]? = some kCR ∧ b.readable[q + 1]? = some kLF)) ∧
    (b.findCRLF = none ↔
      ∀ p, ¬ (b.readable[p]? = some kCR ∧ b.readable[p + 1]? = some kLF)) ∧
    ∀ xs, b.readable = xs ++ [kCR] → b.findCRLF ≠ some xs.length ∧
      (b.findCRLF = none → ∀ data, (b.append (kLF :: data)).findCRLF = some xs.length ∧
        (b.readFd (kLF :: data)).findCRLF = some xs.length) := by
  have h0 : Drains kCRLF [] [] (Buffer.create initialSize).readable := by
    rw [Buffer.readable_create]
    exact .refl _ _
  have hd : Drains kCRLF (calls.flatMap LineCall.chunk) lines b.readable :=
    drains_exec (s := (.create initialSize, [])) h0 calls h
  have hjoin := hd.join Buffer.kCRLF_ne_nil
  refine ⟨fun initialSize' k hk => ?_, hjoin, fun p => b.findCRLF_eq_some_iff,
    b.findCRLF_eq_none_iff, fun xs hr => ⟨b.findCRLF_ne_last hr, fun hn data =>
      ⟨b.findCRLF_split hr hn (b.readable_append _), b.findCRLF_split hr hn (b.readable_readFd _)⟩⟩⟩
  have hle : b.readable.length ≤ (calls.flatMap LineCall.chunk).length := by
    rw [← hjoin, List.length_append]
    exact Nat.le_add_left _ _
  have hread : ((Buffer.create initialSize').append (calls.flatMap LineCall.chunk)).readable =
      calls.flatMap LineCall.chunk := by
    rw [Buffer.readable_append, Buffer.readable_create, List.nil_append]
  obtain ⟨b₁, he₁, hr₁, hf₁⟩ := exec_extract (b, lines) (k := k)
    (Nat.le_trans (length_tokens_le _ _) (Nat.le_trans hle hk))
  obtain ⟨b₂, he₂, hr₂, hf₂⟩ := exec_extract (k := k)
    ((Buffer.create initialSize').append (calls.flatMap LineCall.chunk), []) (by
      rw [hread]
      exact Nat.le_trans (length_tokens_le _ _) hk)
  rw [hread, hd.tokens] at he₂ hr₂
  exact ⟨b₁, b₂, _, he₁, Option.bind_eq_some_iff.mpr ⟨_, rfl, he₂⟩, hr₁.trans hr₂.symm, hf₁, hf₂⟩

/-- An empty line is taken out; a CR comes in over the old one, with the old LF behind it, and is
    not reported; then its own LF comes in. -/
def staleCalls : List LineCall :=
  [.append kCRLF, .extract, .append [kCR], .extract, .readFd [kLF, 65]]

theorem line_extraction_stale : ∃ b lines,
    Machine.exec lineStep (.create 4, []) staleCalls = some (b, lines) ∧
    lines = [[]] ∧ b.readable = [kCR, kLF, 65] ∧
    (∀ initialSize' k, (staleCalls.flatMap LineCall.chunk).length ≤ k → ∃ b₁ b₂ all,
      Machine.exec lineStep (b, lines) (List.replicate k .extract) = some (b₁, all) ∧
      Machine.exec lineStep (.create initialSize', [])
        (.append (staleCalls.flatMap LineCall.chunk) :: List.replicate k .extract) =
          some (b₂, all) ∧
      b₁.readable = b₂.readable ∧ b₁.findCRLF = none ∧ b₂.findCRLF = none) ∧
    lines.flatMap (· ++ kCRLF) ++ b.readable = staleCalls.flatMap LineCall.chunk ∧
    (∀ p, b.findCRLF = some p ↔
      (b.readable[p]? = some kCR ∧ b.readable[p + 1]? = some kLF) ∧
        ∀ q < p, ¬ (b.readable[q]? = some kCR ∧ b.readable[q + 1]? = some kLF)) ∧
    (b.findCRLF = none ↔
      ∀ p, ¬ (b.readable[p]? = some kCR ∧ b.readable[p + 1]? = some kLF)) ∧
    ∀ xs, b.readable = xs ++ [kCR] → b.findCRLF ≠ some xs.length ∧
      (b.findCRLF = none → ∀ data, (b.append (kLF :: data)).findCRLF = some xs.length ∧
        (b.readFd (kLF :: data)).findCRLF = some xs.length) := by
  have h : ((Machine.exec lineStep (.create 4, []) staleCalls).any fun s =>
      decide (s.2 = [[]] ∧ s.1.readable = [kCR, kLF, 65])) = true := by decide +kernel
  obtain ⟨⟨b, lines⟩, hs, hb⟩ := (Option.any_eq_true _ _).mp h
  obtain ⟨hl, hr⟩ := of_decide_eq_true hb
  exact ⟨b, lines, hs, hl, hr, line_extraction 4 staleCalls hs⟩

end CuteMuduo
