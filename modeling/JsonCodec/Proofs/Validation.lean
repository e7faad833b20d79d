import Mathlib
import JsonCodec.Proofs.Utf8

set_option autoImplicit false

/-!
# Where the check of a text stops

There is one place of a text up to which it is well formed and from which no code point goes on, and
the check stops there. So does a scanner that asks for bytes by their places, whatever it passes
over in groups of eight; it has no result if it asks for a byte behind the end.
-/
namespace JsonCodec.Utf8

def Faulty (rest : Bytes) : Prop := ∀ cp, IsScalar cp → ¬ encode cp <+: rest

/-- A text is well formed up to a place, and no code point goes on from there. -/
structure StopsAt (text : Bytes) (p : Nat) : Prop where
  le : p ≤ text.length
  before : WellFormed (text.take p)
  after : Faulty (text.drop p)

theorem encode_ne_nil {cp : Nat} (h : IsScalar cp) : encode cp ≠ [] := by
  have hmax := h.1
  unfold encode
  split_ifs <;> simp

theorem faulty_nil : Faulty [] := fun _ hcp hstarts =>
  encode_ne_nil hcp (List.prefix_nil.1 hstarts)

theorem faulty_cons_iff (lead : UInt8) (tail : Bytes) :
    Faulty (lead :: tail) ↔ afterSequence? lead tail = none := by
  constructor
  · intro h
    cases hs : afterSequence? lead tail with
    | none => rfl
    | some rest =>
      obtain ⟨cp, hcp, htext⟩ := (afterSequence?_iff _ _ _).1 hs
      exact absurd ⟨rest, htext.symm⟩ (h cp hcp)
  · rintro h cp hcp ⟨rest, htext⟩
    have hs := (afterSequence?_iff lead tail rest).2 ⟨cp, hcp, htext.symm⟩
    rw [h] at hs
    cases hs

theorem Faulty.eq_nil {rest : Bytes} (h : Faulty rest) (hw : WellFormed rest) : rest = [] := by
  obtain ⟨cps, hcps, rfl⟩ := hw
  cases cps with
  | nil => rfl
  | cons cp cps =>
    rw [List.flatMap_cons] at h
    exact absurd (List.prefix_append _ _) (h cp (hcps cp List.mem_cons_self))

/-- A code point is taken off a text in one way only. -/
theorem wellFormed_encode_append_iff {cp : Nat} (h : IsScalar cp) (rest : Bytes) :
    WellFormed (encode cp ++ rest) ↔ WellFormed rest := by
  obtain ⟨lead, follow, he⟩ := List.exists_cons_of_ne_nil (encode_ne_nil h)
  have hs := (afterSequence?_iff lead (follow ++ rest) rest).2 ⟨cp, h, by rw [he, List.cons_append]⟩
  rw [he, List.cons_append, wellFormed_cons_iff, hs]
  simp

theorem WellFormed.append_iff {run : Bytes} (h : WellFormed run) (rest : Bytes) :
    WellFormed (run ++ rest) ↔ WellFormed rest := by
  obtain ⟨cps, hcps, rfl⟩ := h
  induction cps with
  | nil => exact Iff.rfl
  | cons cp cps ih =>
    rw [List.flatMap_cons, List.append_assoc,
      wellFormed_encode_append_iff (hcps cp List.mem_cons_self),
      ih fun c hc => hcps c (List.mem_cons_of_mem cp hc)]

theorem StopsAt.le_of_wellFormed {text : Bytes} {p q : Nat} (hp : StopsAt text p)
    (hle : q ≤ text.length) (hq : WellFormed (text.take q)) : q ≤ p := by
  by_contra hlt
  have hsplit : text.take q = text.take p ++ (text.drop p).take (q - p) := by
    rw [← List.take_add, Nat.add_sub_cancel' (by omega)]
  rw [hsplit, hp.before.append_iff] at hq
  -- nothing well formed goes on from the place but the empty text
  have hnone : Faulty ((text.drop p).take (q - p)) := fun cp hcp hstarts =>
    hp.after cp hcp (hstarts.trans (List.take_prefix _ _))
  have hempty := hnone.eq_nil hq
  rw [List.take_eq_nil_iff, List.drop_eq_nil_iff] at hempty
  omega

theorem StopsAt.unique {text : Bytes} {p q : Nat} (hp : StopsAt text p) (hq : StopsAt text q) :
    p = q :=
  Nat.le_antisymm (hq.le_of_wellFormed hp.le hp.before) (hp.le_of_wellFormed hq.le hq.before)

theorem stopsAt_length {run rest : Bytes} (hrun : WellFormed run) (hrest : Faulty rest) :
    StopsAt (run ++ rest) run.length where
  le := by simp
  before := by rwa [List.take_left]
  after := by rwa [List.drop_left]

theorem illFormedWithin_spec (fuel : Nat) (text : Bytes) (h : text.length ≤ fuel) :
    ∃ run, text = run ++ illFormedWithin fuel text ∧ WellFormed run ∧
      Faulty (illFormedWithin fuel text) := by
  induction fuel generalizing text with
  | zero =>
    obtain rfl : text = [] := List.eq_nil_of_length_eq_zero (Nat.le_zero.1 h)
    exact ⟨[], rfl, wellFormed_nil, faulty_nil⟩
  | succ fuel ih =>
    obtain ⟨skipped, htext, hascii⟩ := skipAscii_spec text
    have hskipped := wellFormed_ascii hascii
    have hlen := congrArg List.length htext
    rw [List.length_append] at hlen
    rw [illFormedWithin]
    cases hs : skipAscii text with
    | nil => exact ⟨skipped, by rw [htext, hs], hskipped, faulty_nil⟩
    | cons lead tail =>
      rw [hs, List.length_cons] at hlen
      rw [hs] at htext
      cases ha : afterSequence? lead tail with
      | none => exact ⟨skipped, by simpa [ha] using htext, hskipped, by
          simpa [ha] using (faulty_cons_iff lead tail).2 ha⟩
      | some rest =>
        have hrest := length_afterSequence? ha
        obtain ⟨cp, hcp, hcons⟩ := (afterSequence?_iff lead tail rest).1 ha
        obtain ⟨run, hrun, hwell, hfaulty⟩ := ih rest (by omega)
        simp only [ha]
        refine ⟨skipped ++ (encode cp ++ run), ?_, ?_, hfaulty⟩
        · rw [List.append_assoc, List.append_assoc, ← hrun, ← hcons]
          exact htext
        · exact hskipped.append ((wellFormed_encode hcp).append hwell)

theorem stopsAt_validLength (text : Bytes) : StopsAt text (validLength text) := by
  obtain ⟨run, htext, hrun, hfaulty⟩ := illFormedWithin_spec text.length text le_rfl
  have hlen : validLength text = run.length := by
    have htotal := congrArg List.length htext
    rw [List.length_append] at htotal
    rw [validLength, illFormed]
    omega
  have hstops := stopsAt_length hrun hfaulty
  rw [← htext] at hstops
  rwa [hlen]

/-- The bits of eight bytes from a place on; nothing if one of them is behind the end. -/
def groupAt? (text : Bytes) (p : Nat) : Option UInt8 := do
  let a ← text[p]?
  let b ← text[p + 1]?
  let c ← text[p + 2]?
  let d ← text[p + 3]?
  let e ← text[p + 4]?
  let f ← text[p + 5]?
  let g ← text[p + 6]?
  let h ← text[p + 7]?
  return a ||| b ||| c ||| d ||| e ||| f ||| g ||| h

def passGroups? (text : Bytes) : Nat → Nat → Option Nat
  | 0, p => some p
  | groups + 1, p =>
    if p + 8 ≤ text.length then do
      let bits ← groupAt? text p
      if bits < 0x80 then passGroups? text groups (p + 8) else return p
    else some p

def payloadAt? (text : Bytes) : Nat → Nat → Nat → Option (Option Nat)
  | 0, _, cp => some (some cp)
  | count + 1, p, cp => do
    let b ← text[p]?
    if isContinuation b then payloadAt? text count (p + 1) (cp * 64 + b.toNat % 64)
    else return none

def sequenceAt? (text : Bytes) (p : Nat) : Option (Option Nat) := do
  let lead ← text[p]?
  if lead < 0x80 then return some (p + 1)
  let length := sequenceLength lead
  if length = 0 || text.length - p < length then return none
  match ← payloadAt? text (length - 1) (p + 1) (leadBits length lead) with
  | none => return none
  | some cp =>
    if cp < leastOf length || isSurrogate cp || 0x10FFFF < cp then return none
    else return some (p + length)

/-- Where a scanner stops that passes over at most `groups p` groups at the place `p`. -/
def stopWithin? (groups : Nat → Nat) (text : Bytes) : Nat → Nat → Option Nat
  | 0, p => some p
  | fuel + 1, p => do
    let p ← passGroups? text (groups p) p
    if text.length ≤ p then return p
    match ← sequenceAt? text p with
    | none => return p
    | some next => stopWithin? groups text fuel next

def stop? (groups : Nat → Nat) (text : Bytes) : Option Nat :=
  stopWithin? groups text text.length 0

theorem groupAt?_append (before : Bytes) (a b c d e f g h : UInt8) (rest : Bytes) :
    groupAt? (before ++ a :: b :: c :: d :: e :: f :: g :: h :: rest) before.length =
      some (a ||| b ||| c ||| d ||| e ||| f ||| g ||| h) := by
  simp [groupAt?]

theorem exists_group {rest : Bytes} (h : 8 ≤ rest.length) :
    ∃ a b c d e f g h more, rest = a :: b :: c :: d :: e :: f :: g :: h :: more := by
  match rest, h with
  | a :: b :: c :: d :: e :: f :: g :: h :: more, _ => exact ⟨a, b, c, d, e, f, g, h, more, rfl⟩

theorem passGroups?_append (groups : Nat) (before rest : Bytes) :
    ∃ run more, rest = run ++ more ∧ (∀ b ∈ run, b < 0x80) ∧
      passGroups? (before ++ rest) groups before.length = some (before ++ run).length := by
  induction groups generalizing before rest with
  | zero => exact ⟨[], rest, rfl, by simp, by simp [passGroups?]⟩
  | succ groups ih =>
    rw [passGroups?]
    split_ifs with hlen
    · rw [List.length_append] at hlen
      have hrest : 8 ≤ rest.length := by omega
      obtain ⟨a, b, c, d, e, f, g, h, more, rfl⟩ := exists_group hrest
      rw [groupAt?_append, Option.bind_eq_bind, Option.bind_some]
      split_ifs with hlow
      · obtain ⟨run, last, rfl, hrun, hpass⟩ := ih (before ++ [a, b, c, d, e, f, g, h]) more
        refine ⟨[a, b, c, d, e, f, g, h] ++ run, last, rfl, ?_, ?_⟩
        · intro x hx
          exact (List.mem_append.1 hx).elim (group_ascii hlow x) (hrun x)
        · simpa using hpass
      · exact ⟨[], _, rfl, by simp, by simp⟩
    · exact ⟨[], rest, rfl, by simp, by simp⟩

theorem payloadAt?_append (count : Nat) (before rest : Bytes) (cp : Nat) (h : count ≤ rest.length) :
    payloadAt? (before ++ rest) count before.length cp =
      some (if (rest.take count).all isContinuation then
        some ((rest.take count).foldl (fun cp b => cp * 64 + b.toNat % 64) cp) else none) := by
  induction count generalizing before rest cp with
  | zero => rfl
  | succ count ih =>
    obtain ⟨b, rest, rfl⟩ := List.exists_cons_of_length_pos (Nat.lt_of_lt_of_le count.succ_pos h)
    have hnext := ih (before ++ [b]) rest (cp * 64 + b.toNat % 64) (by simpa using h)
    rw [List.append_assoc, List.singleton_append, List.length_append,
      List.length_singleton] at hnext
    cases hb : isContinuation b with
    | true => simp [payloadAt?, hb, hnext]
    | false => simp [payloadAt?, hb]

theorem afterSequence?_short {lead : UInt8} {tail : Bytes} (hlow : ¬ lead < 0x80)
    (h : sequenceLength lead = 0 ∨ tail.length + 1 < sequenceLength lead) :
    afterSequence? lead tail = none := by
  have hfew : sequenceLength lead = 0 ∨
      (tail.take (sequenceLength lead - 1)).length + 1 < sequenceLength lead := by
    rw [List.length_take]
    omega
  rw [afterSequence?, if_neg hlow, if_pos]
  simp only [Bool.or_eq_true, decide_eq_true_eq]
  exact .inl hfew

theorem afterSequence?_long {lead : UInt8} {tail : Bytes} (hlow : ¬ lead < 0x80)
    (h : ¬ (sequenceLength lead = 0 ∨ tail.length + 1 < sequenceLength lead)) :
    afterSequence? lead tail =
      let length := sequenceLength lead
      let follow := tail.take (length - 1)
      let cp := follow.foldl (fun cp b => cp * 64 + b.toNat % 64) (leadBits length lead)
      if follow.all isContinuation then
        if cp < leastOf length || isSurrogate cp || 0x10FFFF < cp then none
        else some (tail.drop (length - 1))
      else none := by
  have hlen : (tail.take (sequenceLength lead - 1)).length + 1 = sequenceLength lead := by
    rw [List.length_take]
    omega
  have hzero : decide (sequenceLength lead = 0) = false := by
    rw [decide_eq_false_iff_not]
    omega
  rw [afterSequence?, if_neg hlow]
  simp only [hlen, hzero, lt_irrefl, decide_false, Bool.false_or]
  cases (tail.take (sequenceLength lead - 1)).all isContinuation <;> rfl

theorem sequenceAt?_append (before : Bytes) (lead : UInt8) (tail : Bytes) :
    sequenceAt? (before ++ lead :: tail) before.length =
      some ((afterSequence? lead tail).map fun rest =>
        (before ++ lead :: tail).length - rest.length) := by
  have hlead : (before ++ lead :: tail)[before.length]? = some lead := by simp
  have hleft : (before ++ lead :: tail).length - before.length = tail.length + 1 := by simp
  have htotal : (before ++ lead :: tail).length = before.length + tail.length + 1 := by simp; omega
  rw [sequenceAt?, hlead, Option.bind_eq_bind, Option.bind_some, hleft, htotal]
  by_cases hlow : lead < 0x80
  · simp [hlow, afterSequence?]
    omega
  by_cases hshort : sequenceLength lead = 0 ∨ tail.length + 1 < sequenceLength lead
  · rw [afterSequence?_short hlow hshort]
    simp only [hlow, ↓reduceIte]
    rw [if_pos (by simpa using hshort)]
    rfl
  · have hpayload := payloadAt?_append (sequenceLength lead - 1) (before ++ [lead]) tail
      (leadBits (sequenceLength lead) lead) (by omega)
    rw [List.append_assoc, List.singleton_append, List.length_append,
      List.length_singleton] at hpayload
    have hplace : before.length + tail.length + 1 - (tail.drop (sequenceLength lead - 1)).length =
        before.length + sequenceLength lead := by
      rw [List.length_drop]
      omega
    rw [afterSequence?_long hlow hshort]
    simp only [hlow, ↓reduceIte]
    rw [if_neg (by simpa using hshort), hpayload, Option.bind_eq_bind, Option.bind_some]
    cases (tail.take (sequenceLength lead - 1)).all isContinuation with
    | false => rfl
    | true =>
      generalize (tail.take (sequenceLength lead - 1)).foldl _ _ = cp
      simp only [↓reduceIte]
      split_ifs
      · rfl
      · rw [Option.map_some, hplace]
        rfl

theorem stopWithin?_append (groups : Nat → Nat) (fuel : Nat) {before rest : Bytes}
    (hbefore : WellFormed before) (h : rest.length ≤ fuel) :
    ∃ q, stopWithin? groups (before ++ rest) fuel before.length = some q ∧
      StopsAt (before ++ rest) q := by
  induction fuel generalizing before rest with
  | zero =>
    obtain rfl : rest = [] := List.eq_nil_of_length_eq_zero (Nat.le_zero.1 h)
    exact ⟨_, rfl, stopsAt_length hbefore faulty_nil⟩
  | succ fuel ih =>
    obtain ⟨run, more, rfl, hrun, hpass⟩ := passGroups?_append (groups before.length) before rest
    have hahead := hbefore.append (wellFormed_ascii hrun)
    rw [stopWithin?, hpass, Option.bind_eq_bind, Option.bind_some, ← List.append_assoc]
    rw [List.length_append] at h
    cases more with
    | nil =>
      refine ⟨_, if_pos ?_, stopsAt_length hahead faulty_nil⟩
      rw [List.append_nil]
    | cons lead tail =>
      rw [if_neg (by simp), sequenceAt?_append, Option.bind_eq_bind, Option.bind_some]
      cases hs : afterSequence? lead tail with
      | none => exact ⟨_, rfl, stopsAt_length hahead ((faulty_cons_iff lead tail).2 hs)⟩
      | some last =>
        obtain ⟨cp, hcp, htext⟩ := (afterSequence?_iff lead tail last).1 hs
        have hlast := length_afterSequence? hs
        have hnext := @ih (before ++ run ++ encode cp) last (hahead.append (wellFormed_encode hcp))
          (by rw [List.length_cons] at h; omega)
        rw [List.append_assoc, ← htext] at hnext
        have hplace : (before ++ run ++ lead :: tail).length - last.length =
            (before ++ run ++ encode cp).length := by
          rw [htext, ← List.append_assoc, List.length_append, Nat.add_sub_cancel]
        rw [Option.map_some, hplace]
        exact hnext

theorem stop?_eq (groups : Nat → Nat) (text : Bytes) :
    stop? groups text = some (validLength text) := by
  obtain ⟨q, hq, hstops⟩ := @stopWithin?_append groups text.length [] text wellFormed_nil le_rfl
  rw [List.nil_append] at hq hstops
  rw [(stopsAt_validLength text).unique hstops]
  exact hq

/-- What the check of a text finds. -/
structure Validation (text : Bytes) : Prop where
  valid : validLength text = text.length ↔ WellFormed text
  place : ∀ p, validLength text = p ↔ StopsAt text p
  scan : ∀ groups, stop? groups text = some (validLength text)

theorem validation (text : Bytes) : Validation text where
  valid := by
    have hstops := stopsAt_validLength text
    constructor
    · intro h
      have hbefore := hstops.before
      rwa [h, List.take_length] at hbefore
    · intro h
      have hend := stopsAt_length h faulty_nil
      rw [List.append_nil] at hend
      exact hstops.unique hend
  place p := by
    constructor
    · rintro rfl
      exact stopsAt_validLength text
    · exact (stopsAt_validLength text).unique
  scan groups := stop?_eq groups text

/-- A sequence of three bytes across the border of a group, and one of four that is cut off. -/
example : validLength (Bytes.ascii "seven b" ++ encode 0x20AC ++ [0xF0, 0x9F, 0x98]) = 10 := by
  decide +kernel

end JsonCodec.Utf8
