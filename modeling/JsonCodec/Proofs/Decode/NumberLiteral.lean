import Mathlib
import JsonCodec.Proofs.Runs
import JsonCodec.Proofs.Grammar.Token

set_option autoImplicit false

namespace JsonCodec
open Grammar Runs

namespace DigitWord

theorem takeInteger_eq (w : DigitWord) (text : Bytes) :
    w.takeInteger text =
      ((w.takeInteger (text.takeWhile Byte.isDigit)).1, text.dropWhile Byte.isDigit) := by
  induction text generalizing w with
  | nil => rfl
  | cons b text ih =>
    cases hb : Byte.isDigit b with
    | false => simp [takeInteger, hb]
    | true =>
      simp only [List.takeWhile_cons_of_pos hb, List.dropWhile_cons_of_pos hb, takeInteger, hb,
        Bool.not_true, Bool.false_eq_true, ↓reduceIte]
      split
      · rfl
      · exact ih _

theorem takeFraction_eq (w : DigitWord) (text : Bytes) :
    w.takeFraction text =
      ((w.takeFraction (text.takeWhile Byte.isDigit)).1, text.dropWhile Byte.isDigit) := by
  induction text generalizing w with
  | nil => rfl
  | cons b text ih =>
    cases hb : Byte.isDigit b with
    | false => simp [takeFraction, hb]
    | true =>
      simp only [List.takeWhile_cons_of_pos hb, List.dropWhile_cons_of_pos hb, takeFraction, hb,
        Bool.not_true, Bool.false_eq_true, ↓reduceIte]
      split <;> exact ih _

end DigitWord

namespace NumberLiteral

theorem takeExponent_eq (e : Nat) (text : Bytes) :
    takeExponent e text =
      ((takeExponent e (text.takeWhile Byte.isDigit)).1, text.dropWhile Byte.isDigit) := by
  induction text generalizing e with
  | nil => rfl
  | cons b text ih =>
    cases hb : Byte.isDigit b with
    | false => simp [takeExponent, hb]
    | true =>
      simp only [List.takeWhile_cons_of_pos hb, List.dropWhile_cons_of_pos hb, takeExponent, hb,
        ↓reduceIte]
      exact ih _

def wholeWord (d : Digits) : DigitWord :=
  if d.first = Byte.zero then DigitWord.empty else (DigitWord.empty.takeInteger d.text).1

def heldExponent (e : Exponent) : Int :=
  let held := (takeExponent 0 e.digits.text).1
  if e.sign = some Byte.minus then -(held : Int) else held

theorem needDigit_run {b : UInt8} (hb : Byte.isDigit b = true) (fault : Fault) (tail : Bytes) :
    needDigit fault (b :: tail) = .ok ⟨⟩ (b :: tail) := by
  simp [needDigit, bind_run, hb]

theorem needDigit_eq_ok {fault : Fault} {text rest : Bytes} {u : Unit}
    (h : needDigit fault text = .ok u rest) :
    rest = text ∧ ∃ b tail, text = b :: tail ∧ Byte.isDigit b = true := by
  rcases text with _ | ⟨b, tail⟩
  · cases h
  · cases hb : Byte.isDigit b with
    | false => simp [needDigit, bind_run, hb] at h
    | true =>
      rw [needDigit_run hb] at h
      exact ⟨(EStateM.Result.ok.inj h).2.symm, b, tail, rfl, hb⟩

theorem integerPart_run (b : UInt8) (tail : Bytes) :
    integerPart (b :: tail) =
      if b = Byte.zero then .ok DigitWord.empty tail
      else .ok (DigitWord.empty.takeInteger (b :: tail)).1 ((b :: tail).dropWhile Byte.isDigit) := by
  simp only [integerPart, bind_run, get_run]
  by_cases hb : b = 0x30
  · subst hb
    rfl
  · have h := congrArg Prod.snd (DigitWord.takeInteger_eq DigitWord.empty (b :: tail))
    simp [hb, take, h]

theorem integerPart_digits (d : Digits) (hz : d.first = Byte.zero → d.more = []) (rest : Bytes)
    (hr : d.first ≠ Byte.zero → NotAhead Byte.isDigit rest) :
    integerPart (d.text ++ rest) = .ok (wholeWord d) rest := by
  rw [Digits.text, List.cons_append, integerPart_run, wholeWord]
  by_cases h : d.first = Byte.zero
  · simp [h, hz h]
  · have hd := dropWhile_append_notAhead d.isDigit (hr h)
    have ht := takeWhile_append_notAhead d.isDigit (hr h)
    rw [List.cons_append] at hd ht
    rw [if_neg h, if_neg h, DigitWord.takeInteger_eq, hd, ht, Digits.text]

theorem integerPart_eq_ok {b : UInt8} (hb : Byte.isDigit b = true) {tail rest : Bytes}
    {w : DigitWord} (h : integerPart (b :: tail) = .ok w rest) :
    ∃ d : Digits, b :: tail = d.text ++ rest ∧ (d.first = Byte.zero → d.more = []) ∧
      (d.first ≠ Byte.zero → NotAhead Byte.isDigit rest) := by
  rw [integerPart_run] at h
  by_cases hz : b = Byte.zero
  · rw [if_pos hz] at h
    obtain ⟨-, rfl⟩ := EStateM.Result.ok.inj h
    exact ⟨⟨b, [], by simpa using hb⟩, rfl, fun _ => rfl, fun h => absurd hz h⟩
  · rw [if_neg hz] at h
    obtain ⟨-, rfl⟩ := EStateM.Result.ok.inj h
    obtain ⟨d, hd, ht⟩ := exists_digits hb tail
    exact ⟨d, ht, fun h => absurd (hd.symm.trans h) hz, fun _ => notAhead_dropWhile _ _⟩

theorem fractionPart_point (w : DigitWord) {b : UInt8} (hb : Byte.isDigit b = true) (tail : Bytes) :
    fractionPart w (Byte.point :: b :: tail) =
      .ok (true, (w.takeFraction (b :: tail)).1) ((b :: tail).dropWhile Byte.isDigit) := by
  have h := congrArg Prod.snd (DigitWord.takeFraction_eq w (b :: tail))
  change (needDigit .missingFraction >>= fun _ => _) (b :: tail) = _
  rw [bind_run, needDigit_run hb]
  simp only [bind_run, take, modifyGet_run, pure_run, h]

theorem fractionPart_none (w : DigitWord) {text : Bytes} (h : NotAhead (· == Byte.point) text) :
    fractionPart w text = .ok (false, w) text := by
  rcases text with _ | ⟨b, tail⟩
  · rfl
  · have hb : ¬ b = 0x2E := by simpa using h b rfl
    simp [fractionPart, bind_run, hb]

theorem fractionPart_digits (w : DigitWord) (fraction : Option Digits) (rest : Bytes)
    (hn : fraction = none → NotAhead (· == Byte.point) rest)
    (hs : fraction ≠ none → NotAhead Byte.isDigit rest) :
    fractionPart w (Digits.pointTextOf fraction ++ rest) =
      .ok (fraction.isSome, (w.takeFraction (Digits.textOf fraction)).1) rest := by
  cases fraction with
  | none => exact fractionPart_none w (hn rfl)
  | some d =>
    have hr := hs (by simp)
    have hd := dropWhile_append_notAhead d.isDigit hr
    have ht := takeWhile_append_notAhead d.isDigit hr
    change fractionPart w (Byte.point :: d.first :: (d.more ++ rest)) = _
    rw [List.cons_append] at hd ht
    rw [fractionPart_point w (d.isDigit d.first List.mem_cons_self), DigitWord.takeFraction_eq,
      hd, ht]
    rfl

theorem fractionPart_eq_ok {w w' : DigitWord} {text rest : Bytes} {hasFraction : Bool}
    (h : fractionPart w text = .ok (hasFraction, w') rest) :
    ∃ fraction : Option Digits, text = Digits.pointTextOf fraction ++ rest ∧
      (fraction = none → NotAhead (· == Byte.point) rest) ∧
      (fraction ≠ none → NotAhead Byte.isDigit rest) := by
  by_cases hp : NotAhead (· == Byte.point) text
  · rw [fractionPart_none w hp] at h
    obtain ⟨-, rfl⟩ := EStateM.Result.ok.inj h
    exact ⟨none, rfl, fun _ => hp, fun h => absurd rfl h⟩
  · obtain ⟨tail, rfl⟩ : ∃ tail, text = Byte.point :: tail := by
      rcases text with _ | ⟨b, tail⟩
      · exact absurd (fun b hb => by simp at hb) hp
      · by_cases hb : b = Byte.point
        · exact ⟨tail, by rw [hb]⟩
        · exact absurd (fun c hc => by simp_all) hp
    obtain ⟨u, s, hn, -⟩ := bind_eq_ok.1 (show (needDigit .missingFraction >>= fun _ => _) tail =
      .ok (hasFraction, w') rest from h)
    obtain ⟨-, b, tail, rfl, hb⟩ := needDigit_eq_ok hn
    obtain ⟨d, -, ht⟩ := exists_digits hb tail
    rw [fractionPart_point w hb] at h
    obtain ⟨-, rfl⟩ := EStateM.Result.ok.inj h
    exact ⟨some d, congrArg (Byte.point :: ·) ht, by simp, fun _ => notAhead_dropWhile _ _⟩

theorem exponentPart_none (extent : Extent) {text : Bytes} (h : NoExponentAhead extent text) :
    exponentPart extent text = .ok none text := by
  rcases text with _ | ⟨b, tail⟩
  · rfl
  · simp only [exponentPart, bind_run, get_run, h b tail rfl]
    rfl

def markedExponent : Scanner (Option Int) := do
  let negative ← signPart
  needDigit .missingExponent
  let e ← take (takeExponent 0)
  return some (if negative then -(e : Int) else e)

theorem exponentPart_run (extent : Extent) (b : UInt8) (rest : Bytes) :
    exponentPart extent (b :: rest) =
      if Byte.isExponentMark b && exponentFollows extent rest then markedExponent rest
      else .ok none (b :: rest) := by
  simp only [exponentPart, bind_run, get_run]
  split <;> rfl

/-- Behind its mark an exponent is a sign that may be missing, and digits. -/
theorem exponentPart_mark (extent : Extent) {mark : UInt8} {tail : Bytes}
    (h : (Byte.isExponentMark mark && exponentFollows extent tail) = true) :
    exponentPart extent (mark :: tail) = match signPart tail with
      | .ok negative rest =>
        match needDigit .missingExponent rest with
        | .ok _ rest =>
          let e := (takeExponent 0 rest).1
          .ok (some (if negative then -(e : Int) else e)) (rest.dropWhile Byte.isDigit)
        | .error fault rest => .error fault rest
      | .error fault rest => .error fault rest := by
  rw [exponentPart_run, if_pos h]
  simp only [markedExponent, bind_run]
  cases signPart tail with
  | error e s => rfl
  | ok negative s =>
    simp only
    cases needDigit .missingExponent s with
    | error e s => rfl
    | ok u s => simp only [take, modifyGet_run, pure_run, congrArg Prod.snd (takeExponent_eq 0 s)]

theorem signPart_run (text : Bytes) :
    signPart text = match text with
      | [] => .ok false []
      | b :: rest => if Byte.isSign b then .ok (b == Byte.minus) rest else .ok false (b :: rest) := by
  cases text with
  | nil => rfl
  | cons b rest =>
    simp only [signPart, bind_run, get_run]
    split <;> rfl

theorem exists_sign (text : Bytes) :
    ∃ (sign : Option UInt8) (rest : Bytes) (negative : Bool), text = sign.toList ++ rest ∧
      (∀ b ∈ sign, Byte.isSign b = true) ∧ signPart text = .ok negative rest := by
  cases text with
  | nil => exact ⟨none, [], false, rfl, by simp, rfl⟩
  | cons b rest =>
    rw [signPart_run]
    cases hb : Byte.isSign b with
    | true => exact ⟨some b, rest, b == Byte.minus, rfl, by simpa using hb, by simp [hb]⟩
    | false => exact ⟨none, b :: rest, false, rfl, by simp, by simp [hb]⟩

theorem isSign_of_isDigit {b : UInt8} (h : Byte.isDigit b = true) : Byte.isSign b = false := by
  rw [Bool.eq_false_iff]
  intro hs
  rcases isSign_cases hs with rfl | rfl
  · exact absurd h (by decide)
  · exact absurd h (by decide)

theorem exponentFollows_digits (extent : Extent) (e : Exponent) (rest : Bytes) :
    exponentFollows extent (e.sign.toList ++ e.digits.text ++ rest) = true := by
  have hd := e.digits.isDigit e.digits.first List.mem_cons_self
  cases extent with
  | whole => rfl
  | leading =>
    cases hs : e.sign with
    | none =>
      simp [exponentFollows, Numeral.skipSign, Digits.text, isSign_of_isDigit hd, hd]
    | some b => simp [exponentFollows, Numeral.skipSign, Digits.text, e.isSign b hs, hd]

theorem signPart_digits (e : Exponent) (rest : Bytes) :
    signPart (e.sign.toList ++ e.digits.text ++ rest) =
      .ok (e.sign == some Byte.minus) (e.digits.text ++ rest) := by
  have hd := e.digits.isDigit e.digits.first List.mem_cons_self
  rw [signPart_run]
  cases hs : e.sign with
  | none => simp [Digits.text, isSign_of_isDigit hd]
  | some b => simp [e.isSign b hs]

theorem exponentPart_some (extent : Extent) (e : Exponent) (rest : Bytes)
    (hr : NotAhead Byte.isDigit rest) :
    exponentPart extent (e.text ++ rest) = .ok (some (heldExponent e)) rest := by
  have hf := exponentFollows_digits extent e rest
  have hd := dropWhile_append_notAhead e.digits.isDigit hr
  have ht := takeWhile_append_notAhead e.digits.isDigit hr
  rw [Exponent.text, List.cons_append,
    exponentPart_mark extent (by rw [e.isMark, hf]; rfl), signPart_digits]
  change (match needDigit _ (e.digits.first :: (e.digits.more ++ rest)) with
    | .ok _ _ => _
    | .error _ _ => _) = _
  rw [needDigit_run (e.digits.isDigit _ List.mem_cons_self)]
  simp only [List.cons_append] at hd ht
  simp only [takeExponent_eq 0 (e.digits.first :: _), hd, ht, heldExponent, Digits.text, beq_iff_eq]

theorem exponentPart_exponent (extent : Extent) (exponent : Option Exponent) (rest : Bytes)
    (hn : exponent = none → NoExponentAhead extent rest)
    (hs : exponent ≠ none → NotAhead Byte.isDigit rest) :
    exponentPart extent (Exponent.textOf exponent ++ rest) =
      .ok (exponent.map heldExponent) rest := by
  cases exponent with
  | none => exact exponentPart_none extent (hn rfl)
  | some e => exact exponentPart_some extent e rest (hs (by simp))

theorem exponentPart_eq_ok {extent : Extent} {text rest : Bytes} {held : Option Int}
    (h : exponentPart extent text = .ok held rest) :
    ∃ exponent : Option Exponent, text = Exponent.textOf exponent ++ rest ∧
      (exponent = none → NoExponentAhead extent rest) ∧
      (exponent ≠ none → NotAhead Byte.isDigit rest) := by
  by_cases hn : NoExponentAhead extent text
  · rw [exponentPart_none extent hn] at h
    obtain ⟨-, rfl⟩ := EStateM.Result.ok.inj h
    exact ⟨none, rfl, fun _ => hn, fun h => absurd rfl h⟩
  · obtain ⟨mark, tail, rfl, hm⟩ : ∃ mark tail, text = mark :: tail ∧
        (Byte.isExponentMark mark && exponentFollows extent tail) = true := by
      simpa [NoExponentAhead] using hn
    obtain ⟨sign, s, negative, rfl, hsign, hrun⟩ := exists_sign tail
    rw [exponentPart_mark extent hm, hrun] at h
    cases hs : needDigit .missingExponent s with
    | error e s' => simp [hs] at h
    | ok u s' =>
      obtain ⟨rfl, b, more, rfl, hb⟩ := needDigit_eq_ok hs
      simp only [hs, EStateM.Result.ok.injEq] at h
      obtain ⟨-, rfl⟩ := h
      obtain ⟨d, -, hd⟩ := exists_digits hb more
      refine ⟨some ⟨mark, sign, d, (Bool.and_eq_true_iff.1 hm).1, hsign⟩, ?_, by simp,
        fun _ => notAhead_dropWhile _ _⟩
      simp only [Exponent.textOf, Exponent.text, List.cons_append, List.append_assoc, ← hd]

def gathered (n : Grammar.Numeral) : NumberLiteral where
  negative := n.negative
  isFloat := !n.isIntegral
  digits := ((wholeWord n.whole).takeFraction (Digits.textOf n.fraction)).1
  exponent := (n.exponent.map heldExponent).getD 0

theorem unsigned_run (extent : Extent) (negative : Bool) (text : Bytes) :
    unsigned extent negative text = match integerPart text with
      | .error fault rest => .error fault rest
      | .ok w rest =>
        match fractionPart w rest with
        | .error fault rest => .error fault rest
        | .ok (hasFraction, w) rest =>
          match exponentPart extent rest with
          | .error fault rest => .error fault rest
          | .ok held rest => .ok ⟨negative, hasFraction || held.isSome, w, held.getD 0⟩ rest := by
  simp only [unsigned, bind_run]
  cases integerPart text with
  | error e s => rfl
  | ok w s =>
    simp only
    cases fractionPart w s with
    | error e s => rfl
    | ok p s =>
      simp only
      cases exponentPart extent s <;> rfl

theorem ends_iff (extent : Extent) (n : Grammar.Numeral) (rest : Bytes) :
    n.Ends extent rest ↔
      (n.exponent ≠ none → NotAhead Byte.isDigit rest) ∧
      (n.exponent = none → NoExponentAhead extent rest) ∧
      (n.exponent = none → n.fraction ≠ none → NotAhead Byte.isDigit rest) ∧
      (n.exponent = none → n.fraction = none → NotAhead (· == Byte.point) rest) ∧
      (n.exponent = none → n.fraction = none → n.whole.first ≠ Byte.zero →
        NotAhead Byte.isDigit rest) := by
  unfold Grammar.Numeral.Ends
  cases n.fraction <;> cases n.exponent <;> simp <;> tauto

/-- The scanner takes a whole numeral off a text that does not go on with it. -/
theorem unsigned_numeral (extent : Extent) (n : Grammar.Numeral) (rest : Bytes)
    (h : n.Ends extent rest) :
    unsigned extent n.negative (n.unsignedText ++ rest) = .ok (gathered n) rest := by
  obtain ⟨h₁, h₂, h₃, h₄, h₅⟩ := (ends_iff extent n rest).1 h
  have digit : ∀ b, Byte.isExponentMark b = true → Byte.isDigit b = false :=
    fun _ hb => (mark_plain hb).1
  have hw := integerPart_digits n.whole n.zero_alone
    (Digits.pointTextOf n.fraction ++ (Exponent.textOf n.exponent ++ rest))
    fun hz => notAhead_point _ _ fun hf => notAhead_exponent _ _ digit fun he => h₅ he hf hz
  have hf := fractionPart_digits (wholeWord n.whole) n.fraction
    (Exponent.textOf n.exponent ++ rest)
    (fun hf => notAhead_exponent _ _ (fun _ hb => (mark_plain hb).2) fun he => h₄ he hf)
    (fun hf => notAhead_exponent _ _ digit fun he => h₃ he hf)
  have he := exponentPart_exponent extent n.exponent rest h₂ h₁
  simp only [Grammar.Numeral.unsignedText, List.append_assoc, unsigned_run, hw, hf, he, gathered,
    Grammar.Numeral.isIntegral]
  cases n.fraction <;> cases n.exponent <;> rfl

theorem unsigned_eq_ok {extent : Extent} {negative : Bool} {b : UInt8}
    (hb : Byte.isDigit b = true) {tail rest : Bytes} {l : NumberLiteral}
    (h : unsigned extent negative (b :: tail) = .ok l rest) :
    ∃ n : Grammar.Numeral, n.negative = negative ∧ b :: tail = n.unsignedText ++ rest ∧
      n.Ends extent rest := by
  rw [unsigned_run] at h
  cases hi : integerPart (b :: tail) with
  | error e s => simp [hi] at h
  | ok w s =>
    cases hf : fractionPart w s with
    | error e s' => simp [hi, hf] at h
    | ok p s' =>
      cases he : exponentPart extent s' with
      | error e s'' => simp [hi, hf, he] at h
      | ok held s'' =>
        simp only [hi, hf, he, EStateM.Result.ok.injEq] at h
        obtain ⟨-, rfl⟩ := h
        obtain ⟨d, hd, hz, hdr⟩ := integerPart_eq_ok hb hi
        obtain ⟨fraction, rfl, hfn, hfs⟩ := fractionPart_eq_ok hf
        obtain ⟨exponent, rfl, hen, hes⟩ := exponentPart_eq_ok he
        refine ⟨⟨negative, d, fraction, exponent, hz⟩, rfl, ?_, ?_⟩
        · simp [Grammar.Numeral.unsignedText, hd]
        · rw [ends_iff]
          refine ⟨hes, hen, ?_, ?_, ?_⟩
          · rintro rfl hn
            exact hfs hn
          · rintro rfl rfl
            exact hfn rfl
          · rintro rfl rfl hn
            exact hdr hn

end NumberLiteral
end JsonCodec
