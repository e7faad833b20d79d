import Mathlib
import JsonCodec.Proofs.Decode.Growth.Token

set_option autoImplicit false

namespace JsonCodec
open Grammar Runs

namespace NumberLiteral

theorem settles_needDigit {otherwise : Fault} (h : otherwise.code ≠ .unterminatedValue) :
    Settles (needDigit otherwise) := by
  intro text
  rcases text with _ | ⟨b, rest⟩
  · exact settlesAt_nil rfl (by decide)
  · cases hb : Byte.isDigit b with
    | true => exact settlesAt_ok ⟨⟩ (b :: rest) (List.cons_ne_nil _ _) fun more =>
        needDigit_run hb otherwise (rest ++ more)
    | false =>
      refine settlesAt_error otherwise (fun more => ?_) h
      simp [needDigit, bind_run, hb]

/-- A run of digits that does not end with the text is the same in a longer one. -/
theorem settles_take {α : Type} {f : Bytes → α × Bytes}
    (hf : ∀ text, f text = ((f (text.takeWhile Byte.isDigit)).1, text.dropWhile Byte.isDigit)) :
    Settles (take f) := by
  intro text
  have hrun (text : Bytes) : take f text =
      .ok (f (text.takeWhile Byte.isDigit)).1 (text.dropWhile Byte.isDigit) := by
    rw [take, modifyGet_run, hf text]
  refine ⟨fun more => ?_, fun h => ?_, fun fault s' h _ => ?_⟩
  · by_cases hd : text.dropWhile Byte.isDigit = []
    · refine .inl ?_
      rw [hrun, hd]
      rfl
    · refine .inr ((hrun (text ++ more)).trans ?_)
      rw [hrun, dropWhile_append_of_ne hd, takeWhile_append_of_ne hd]
      rfl
  · obtain rfl := List.length_eq_zero_iff.1 h
    rw [hrun]
    rfl
  · rw [hrun] at h
    cases h

theorem settles_integerPart : Settles integerPart := by
  intro text
  rcases text with _ | ⟨b, rest⟩
  · exact settlesAt_nil_ok rfl
  · by_cases hb : b = Byte.zero
    · refine settlesAt_ok DigitWord.empty rest (List.cons_ne_nil _ _) fun more => ?_
      rw [List.cons_append, integerPart_run, if_pos hb]
    · have hrun (tail : Bytes) : integerPart (b :: tail) =
          take DigitWord.empty.takeInteger (b :: tail) := by
        rw [integerPart_run, if_neg hb, take, modifyGet_run, DigitWord.takeInteger_eq]
      exact .of_step (take DigitWord.empty.takeInteger) (b :: rest) (Nat.succ_ne_zero _) (hrun rest)
        (fun more => hrun (rest ++ more))
        (settles_take (DigitWord.takeInteger_eq DigitWord.empty) _)

theorem settles_fractionPart (w : DigitWord) : Settles (fractionPart w) := by
  intro text
  rcases text with _ | ⟨b, rest⟩
  · exact settlesAt_nil_ok rfl
  · by_cases hb : b = Byte.point
    · subst hb
      refine .of_step (needDigit .missingFraction >>= fun _ => take w.takeFraction >>= fun w =>
        pure (true, w)) rest (Nat.succ_ne_zero _) rfl (fun _ => rfl) ?_
      exact (settles_needDigit (by decide)).bind (fun _ =>
        (settles_take (DigitWord.takeFraction_eq w)).bind fun _ => .pure _) rest
    · refine settlesAt_ok (false, w) (b :: rest) (List.cons_ne_nil _ _) fun more => ?_
      exact fractionPart_none w (by simpa [NotAhead] using hb)

theorem settles_signPart : Settles signPart := by
  intro text
  rcases text with _ | ⟨b, rest⟩
  · exact settlesAt_nil_ok rfl
  · cases hb : Byte.isSign b with
    | true =>
      refine settlesAt_ok (b == Byte.minus) rest (List.cons_ne_nil _ _) fun more => ?_
      rw [List.cons_append, signPart_run]
      exact if_pos hb
    | false =>
      refine settlesAt_ok false (b :: rest) (List.cons_ne_nil _ _) fun more => ?_
      rw [List.cons_append, signPart_run]
      exact if_neg (by simp [hb])

theorem settles_markedExponent : Settles markedExponent :=
  settles_signPart.bind fun _ => (settles_needDigit (by decide)).bind fun _ =>
    (settles_take (takeExponent_eq 0)).bind fun _ => .pure _

/-- What follows a mark is seen at the byte behind a sign, if there is one. -/
theorem exponentFollows_append {rest : Bytes} (h : Numeral.skipSign rest ≠ []) (extent : Extent)
    (more : Bytes) : exponentFollows extent (rest ++ more) = exponentFollows extent rest := by
  cases extent with
  | whole => rfl
  | leading =>
    rcases rest with _ | ⟨b, rest⟩
    · exact absurd rfl h
    · simp only [exponentFollows, Numeral.skipSign, List.cons_append] at h ⊢
      split_ifs with hb
      · rw [if_pos hb] at h
        obtain ⟨c, tail, rfl⟩ := List.exists_cons_of_ne_nil h
        rfl
      · rfl

theorem markedExponent_end {rest : Bytes} (h : Numeral.skipSign rest = []) :
    markedExponent rest = .error .unexpectedEnd [] := by
  rcases rest with _ | ⟨b, rest⟩
  · rfl
  · rw [Numeral.skipSign] at h
    split_ifs at h with hb
    subst h
    have hsign : signPart [b] = .ok (b == Byte.minus) [] := by
      rw [signPart_run]
      exact if_pos hb
    rw [markedExponent, bind_run, hsign]
    rfl

theorem settles_exponentPart (extent : Extent) : Settles (exponentPart extent) := by
  intro text
  rcases text with _ | ⟨b, rest⟩
  · exact settlesAt_nil_ok rfl
  have hrun (tail : Bytes) := exponentPart_run extent b tail
  by_cases hend : Numeral.skipSign rest = []
  · -- Nothing is seen behind the mark and its sign, so this may or may not be an exponent.
    have hfollows : exponentFollows extent rest = true := by
      cases extent with
      | whole => rfl
      | leading => simp only [exponentFollows, hend]
    by_cases hb : Byte.isExponentMark b = true
    · have hmarked : exponentPart extent (b :: rest) = markedExponent rest := by
        rw [hrun, hfollows, hb]
        rfl
      exact .of_error (hmarked.trans (markedExponent_end hend)) (by decide) fun _ => rfl
    · refine settlesAt_ok none (b :: rest) (List.cons_ne_nil _ _) fun more => ?_
      rw [List.cons_append, hrun, if_neg (by simp [hb])]
  · by_cases hb : (Byte.isExponentMark b && exponentFollows extent rest) = true
    · refine .of_step markedExponent rest (Nat.succ_ne_zero _) ((hrun rest).trans (if_pos hb))
        (fun more => (hrun (rest ++ more)).trans (if_pos ?_)) (settles_markedExponent rest)
      rwa [exponentFollows_append hend]
    · refine settlesAt_ok none (b :: rest) (List.cons_ne_nil _ _) fun more => ?_
      rw [List.cons_append, hrun, exponentFollows_append hend, if_neg hb]

theorem settles_unsigned (extent : Extent) (negative : Bool) :
    Settles (unsigned extent negative) :=
  settles_integerPart.bind fun _ => (settles_fractionPart _).bind fun _ =>
    (settles_exponentPart extent).bind fun _ => .pure _

theorem grow_unsignedValue (o : DecodeOptions) (extent : Extent) (negative : Bool)
    (start text more : Bytes) :
    MayGoOn (unsignedValue o extent start negative text) ∨
      unsignedValue o extent (start ++ more) negative (text ++ more) =
        grown more (unsignedValue o extent start negative text) := by
  have hgrow : MayGoOn (unsigned extent negative text) ∨ unsigned extent negative (text ++ more) = _ :=
    (settles_unsigned extent negative text).grow more
  unfold unsignedValue
  cases hrun : unsigned extent negative text with
  | error fault rest =>
    rw [hrun] at hgrow
    refine hgrow.imp id fun hgrow => ?_
    rw [hgrow]
    rfl
  | ok literal rest =>
    rw [hrun] at hgrow
    have htake : (start ++ more).take ((start ++ more).length - (rest ++ more).length) =
        start.take (start.length - rest.length) := by
      rw [List.length_append, List.length_append, Nat.add_sub_add_right,
        List.take_append_of_le_length (Nat.sub_le _ _)]
    rcases hgrow with hgrow | hgrow
    · refine .inl ?_
      simp only
      split
      · exact hgrow
      · split
        · exact hgrow
        · exact (by decide : ¬ Fault.numberOutOfRange.IsFinal)
    · refine .inr ?_
      rw [hgrow]
      simp only [grown, Growing.grow, htake]
      split
      · rfl
      · split <;> rfl

theorem unterminated_unsignedValue (o : DecodeOptions) (extent : Extent) (negative : Bool)
    {start text rest : Bytes} {fault : Fault}
    (h : unsignedValue o extent start negative text = .error fault rest)
    (hc : fault.code = .unterminatedValue) : rest = [] := by
  unfold unsignedValue at h
  cases hrun : unsigned extent negative text with
  | error fault' rest' =>
    rw [hrun] at h
    obtain ⟨rfl, rfl⟩ := EStateM.Result.error.inj h
    exact List.length_eq_zero_iff.1
      ((settles_unsigned extent negative text).unterminated fault' rest' hrun hc)
  | ok literal rest' =>
    rw [hrun] at h
    simp only at h
    split at h
    · cases h
    · split at h
      · cases h
      · cases h
        cases hc

theorem minusPart_append {text rest : Bytes} {negative : Bool} {b : UInt8}
    (h : minusPart text = .ok negative (b :: rest)) (more : Bytes) :
    minusPart (text ++ more) = .ok negative (b :: (rest ++ more)) := by
  rcases text with _ | ⟨c, text⟩
  · cases h
  · rw [List.cons_append, minusPart_run]
    rw [minusPart_run] at h
    by_cases hc : c = Byte.minus
    · simp only [if_pos hc, EStateM.Result.ok.injEq] at h ⊢
      rw [h.2]
      exact ⟨h.1, rfl⟩
    · simp only [if_neg hc, EStateM.Result.ok.injEq, List.cons.injEq] at h ⊢
      exact ⟨h.1, h.2.1, congrArg (· ++ more) h.2.2⟩

def negativeInfinity : Scanner Value := do
  Scanner.word infinityWord
  return .float (.infinity true)

theorem negativeInfinity_run (text : Bytes) :
    negativeInfinity text = match Scanner.word infinityWord text with
      | .error fault rest => .error fault rest
      | .ok _ rest => .ok (.float (.infinity true)) rest := by
  rw [negativeInfinity, bind_run]
  cases Scanner.word infinityWord text <;> rfl

theorem settles_value (o : DecodeOptions) (extent : Extent) : Settles (value o extent) := by
  intro start
  obtain ⟨negative, tail, hminus, htext⟩ := exists_minus start
  have hrun := value_run o extent start
  rw [hminus] at hrun
  rcases tail with _ | ⟨b, rest⟩
  · exact .of_error hrun (by decide) fun _ => rfl
  have hs : Remaining.remaining start ≠ 0 := by
    rw [htext]
    simp [Remaining.remaining]
  have hrun' (more : Bytes) := value_run o extent (start ++ more)
  simp only [minusPart_append hminus] at hrun hrun'
  by_cases hinf : (negative && o.dialect.hasNonFinite && b == 0x49) = true
  · simp only [if_pos hinf] at hrun hrun'
    exact .of_step negativeInfinity (b :: rest) hs (hrun.trans (negativeInfinity_run _).symm)
      (fun more => (hrun' more).trans (negativeInfinity_run _).symm)
      ((Scanner.settles_word _).bind (fun _ => .pure _) _)
  · simp only [if_neg hinf] at hrun hrun'
    by_cases hd : (!Byte.isDigit b) = true
    · simp only [if_pos hd] at hrun hrun'
      exact .of_fault (b :: rest) hs hrun hrun' (by decide)
    · simp only [if_neg hd] at hrun hrun'
      refine ⟨fun more => ?_, fun h => absurd h hs, fun fault s' h hc => ?_⟩
      · rw [hrun]
        refine (grow_unsignedValue o extent negative start (b :: rest) more).imp_right fun h => ?_
        exact (hrun' more).trans h
      · rw [hrun] at h
        exact congrArg List.length (unterminated_unsignedValue o extent negative h hc)

end NumberLiteral
end JsonCodec
