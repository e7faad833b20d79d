import Mathlib
import JsonCodec.Proofs.Decode.Conservation
import JsonCodec.Proofs.Grammar.Keys

set_option autoImplicit false

namespace JsonCodec
open Grammar Runs

def Reached (start rest : Bytes) : Prop :=
  ∃ read, start = read ++ rest ∧ ∀ b ∈ read, Place.isStructural b = false

namespace Reached

theorem refl (text : Bytes) : Reached text text := ⟨[], rfl, List.forall_mem_nil _⟩

theorem trans {a b c : Bytes} (h : Reached a b) (h' : Reached b c) : Reached a c := by
  obtain ⟨read, rfl, hread⟩ := h
  obtain ⟨read', rfl, hread'⟩ := h'
  exact ⟨read ++ read', (List.append_assoc _ _ _).symm, List.forall_mem_append.2 ⟨hread, hread'⟩⟩

theorem cons {b : UInt8} (h : Place.isStructural b = false) (rest : Bytes) :
    Reached (b :: rest) rest :=
  ⟨[b], rfl, by simpa using h⟩

theorem dropWhile {p : UInt8 → Bool} (h : ∀ b, p b = true → Place.isStructural b = false)
    (text : Bytes) : Reached text (text.dropWhile p) :=
  ⟨text.takeWhile p, List.takeWhile_append_dropWhile.symm, fun b hb =>
    h b (List.mem_takeWhile_imp hb)⟩

end Reached

/-- Whether it succeeds or fails, a scanner has gone over no byte that opens or closes anything. -/
def SeesNoStructure {α : Type} (x : Scanner α) : Prop := ∀ text, Reached text (finalState (x text))

namespace SeesNoStructure

variable {α β : Type}

theorem pure (a : α) : SeesNoStructure (pure a) := Reached.refl

theorem throw (fault : Fault) : SeesNoStructure (throw fault : Scanner α) := Reached.refl

theorem bindAt {x : Scanner α} {f : α → Scanner β} {text : Bytes}
    (h : Reached text (finalState (x text))) (hf : ∀ a, SeesNoStructure (f a)) :
    Reached text (finalState ((x >>= f) text)) := by
  rw [bind_run]
  cases hx : x text with
  | ok a rest =>
    rw [hx] at h
    exact h.trans (hf a rest)
  | error fault rest =>
    rw [hx] at h
    exact h

theorem bind {x : Scanner α} {f : α → Scanner β} (h : SeesNoStructure x)
    (hf : ∀ a, SeesNoStructure (f a)) : SeesNoStructure (x >>= f) := fun text => bindAt (h text) hf

theorem ite {c : Prop} [Decidable c] {x y : Scanner α} (hx : SeesNoStructure x)
    (hy : SeesNoStructure y) : SeesNoStructure (if c then x else y) := by
  split_ifs
  · exact hx
  · exact hy

theorem behind {b : UInt8} (hb : Place.isStructural b = false) {x : Scanner α}
    (h : SeesNoStructure x) (rest : Bytes) : Reached (b :: rest) (finalState (x rest)) :=
  (Reached.cons hb rest).trans (h rest)

end SeesNoStructure

theorem isStructural_space {b : UInt8} (h : Byte.isSpace b = true) :
    Place.isStructural b = false := by
  rcases isSpace_cases h with rfl | rfl | rfl | rfl <;> decide

theorem isStructural_digit {b : UInt8} (h : Byte.isDigit b = true) :
    Place.isStructural b = false := by
  revert b
  decide +kernel

theorem isStructural_sign {b : UInt8} (h : Byte.isSign b = true) :
    Place.isStructural b = false := by
  rcases isSign_cases h with rfl | rfl <;> decide

theorem isStructural_mark {b : UInt8} (h : Byte.isExponentMark b = true) :
    Place.isStructural b = false := by
  rcases isExponentMark_cases h with rfl | rfl <;> decide

namespace Scanner

theorem seesNoStructure_skipSpace : SeesNoStructure skipSpace :=
  Reached.dropWhile fun _ => isStructural_space

theorem seesNoStructure_colon : SeesNoStructure (expect Byte.colon) := by
  intro text
  rw [expect_run]
  rcases text with _ | ⟨b, rest⟩
  · exact .refl []
  · simp only
    split_ifs with hb
    · exact .cons (hb ▸ by decide) rest
    · exact .refl _

theorem seesNoStructure_word {spelling : Bytes}
    (h : ∀ b ∈ spelling, Place.isStructural b = false) : SeesNoStructure (word spelling) := by
  intro text
  rw [word_run]
  split_ifs with hp hq
  · obtain ⟨rest, rfl⟩ := List.isPrefixOf_iff_prefix.1 hp
    exact ⟨spelling, by simp [finalState], h⟩
  · obtain ⟨rest, rfl⟩ := List.isPrefixOf_iff_prefix.1 hq
    exact ⟨text, (List.append_nil text).symm, fun b hb => h b (List.mem_append_left rest hb)⟩
  · exact .refl text

end Scanner

namespace NumberLiteral

theorem seesNoStructure_needDigit (otherwise : Fault) :
    SeesNoStructure (needDigit otherwise) := by
  intro text
  rcases text with _ | ⟨b, rest⟩
  · exact .refl []
  · exact SeesNoStructure.ite (.pure _) (.throw _) (b :: rest)

theorem seesNoStructure_take {α : Type} {f : Bytes → α × Bytes}
    (hf : ∀ text, (f text).2 = text.dropWhile Byte.isDigit) : SeesNoStructure (take f) := by
  intro text
  change Reached text (f text).2
  rw [hf]
  exact .dropWhile (fun _ => isStructural_digit) text

theorem seesNoStructure_integerPart : SeesNoStructure integerPart := by
  intro text
  rcases text with _ | ⟨b, rest⟩
  · exact .refl []
  · rw [integerPart_run]
    split_ifs with hb
    · exact .cons (hb ▸ by decide) rest
    · exact .dropWhile (fun _ => isStructural_digit) _

theorem seesNoStructure_fractionPart (w : DigitWord) : SeesNoStructure (fractionPart w) := by
  intro text
  by_cases hp : NotAhead (· == Byte.point) text
  · rw [fractionPart_none w hp]
    exact .refl text
  · obtain ⟨rest, rfl⟩ : ∃ rest, text = Byte.point :: rest := by
      rcases text with _ | ⟨b, rest⟩
      · simp [NotAhead] at hp
      · exact ⟨rest, by simpa [NotAhead] using hp⟩
    refine SeesNoStructure.behind (x := needDigit .missingFraction >>= fun _ => _) (by decide) ?_ rest
    exact .bind (seesNoStructure_needDigit _) fun _ => .bind
      (seesNoStructure_take fun text => congrArg Prod.snd (DigitWord.takeFraction_eq w text))
      fun _ => .pure _

theorem seesNoStructure_minusPart : SeesNoStructure minusPart := by
  intro text
  rw [minusPart_run]
  rcases text with _ | ⟨b, rest⟩
  · exact .refl []
  · simp only
    split_ifs with hb
    · exact .cons (hb ▸ by decide) rest
    · exact .refl _

theorem seesNoStructure_signPart : SeesNoStructure signPart := by
  intro text
  rw [signPart_run]
  rcases text with _ | ⟨b, rest⟩
  · exact .refl []
  · simp only
    split_ifs with hb
    · exact .cons (isStructural_sign hb) rest
    · exact .refl _

theorem seesNoStructure_exponentPart (extent : Extent) :
    SeesNoStructure (exponentPart extent) := by
  intro text
  by_cases hn : NoExponentAhead extent text
  · rw [exponentPart_none extent hn]
    exact .refl text
  · obtain ⟨mark, rest, rfl, hm⟩ : ∃ mark rest, text = mark :: rest ∧
        (Byte.isExponentMark mark && exponentFollows extent rest) = true := by
      simpa [NoExponentAhead] using hn
    rw [exponentPart_run, if_pos hm]
    refine SeesNoStructure.behind (isStructural_mark (Bool.and_eq_true_iff.1 hm).1) ?_ rest
    exact .bind seesNoStructure_signPart fun _ => .bind (seesNoStructure_needDigit _) fun _ =>
      .bind (seesNoStructure_take fun text => congrArg Prod.snd (takeExponent_eq 0 text))
        fun _ => .pure _

theorem seesNoStructure_unsigned (extent : Extent) (negative : Bool) :
    SeesNoStructure (unsigned extent negative) :=
  .bind seesNoStructure_integerPart fun _ => .bind (seesNoStructure_fractionPart _) fun _ =>
    .bind (seesNoStructure_exponentPart extent) fun _ => .pure _

theorem isStructural_infinityWord : ∀ b ∈ infinityWord, Place.isStructural b = false := by
  decide +kernel

theorem seesNoStructure_value (o : DecodeOptions) (extent : Extent) :
    SeesNoStructure (value o extent) := by
  intro start
  have hminus := seesNoStructure_minusPart start
  rw [value_run]
  cases hm : minusPart start with
  | error fault rest =>
    rw [hm] at hminus
    exact hminus
  | ok negative text =>
    rw [hm] at hminus
    rcases text with _ | ⟨b, rest⟩
    · exact hminus
    · simp only
      split
      · have hword := Scanner.seesNoStructure_word isStructural_infinityWord (b :: rest)
        cases hw : Scanner.word infinityWord (b :: rest) with
        | error fault s =>
          rw [hw] at hword
          exact hminus.trans hword
        | ok u s =>
          rw [hw] at hword
          exact hminus.trans hword
      · split
        · exact hminus
        · have hdigits := seesNoStructure_unsigned extent negative (b :: rest)
          unfold unsignedValue
          cases hu : unsigned extent negative (b :: rest) with
          | error fault s =>
            rw [hu] at hdigits
            exact hminus.trans hdigits
          | ok literal s =>
            rw [hu] at hdigits
            simp only
            split
            · exact hminus.trans hdigits
            · split
              · exact hminus.trans hdigits
              · exact .refl start

end NumberLiteral

namespace StringLiteral

open Place (StaysOpen)

def KeepsOpen {α : Type} (escaped : Bool) (x : Scanner α) : Prop :=
  ∀ text, match x text with
    | .ok _ rest => ∃ read, text = read ++ rest ∧ StaysOpen escaped read false
    | .error _ rest => ∃ read e, text = read ++ rest ∧ StaysOpen escaped read e

theorem keepsOpen_pure {α : Type} (a : α) : KeepsOpen false (pure a : Scanner α) :=
  fun _ => ⟨[], rfl, .nil false⟩

theorem keepsOpen_throw {α : Type} (escaped : Bool) (fault : Fault) :
    KeepsOpen escaped (throw fault : Scanner α) :=
  fun _ => ⟨[], escaped, rfl, .nil escaped⟩

theorem KeepsOpen.bind {α β : Type} {escaped : Bool} {x : Scanner α} {f : α → Scanner β}
    (hx : KeepsOpen escaped x) (hf : ∀ a, KeepsOpen false (f a)) :
    KeepsOpen escaped (x >>= f) := by
  intro text
  have h := hx text
  rw [bind_run]
  cases hrun : x text with
  | error fault rest =>
    rw [hrun] at h
    exact h
  | ok a rest =>
    rw [hrun] at h
    obtain ⟨read, rfl, hread⟩ := h
    have h' := hf a rest
    simp only
    cases hrun' : f a rest with
    | error fault rest' =>
      rw [hrun'] at h'
      obtain ⟨read', e, rfl, hread'⟩ := h'
      exact ⟨read ++ read', e, (List.append_assoc _ _ _).symm, hread.append hread'⟩
    | ok b rest' =>
      rw [hrun'] at h'
      obtain ⟨read', rfl, hread'⟩ := h'
      exact ⟨read ++ read', (List.append_assoc _ _ _).symm, hread.append hread'⟩

theorem KeepsOpen.ite {α : Type} {escaped : Bool} {c : Prop} [Decidable c] {x y : Scanner α}
    (hx : KeepsOpen escaped x) (hy : KeepsOpen escaped y) :
    KeepsOpen escaped (if c then x else y) := by
  split_ifs
  · exact hx
  · exact hy

theorem KeepsOpen.behind {α : Type} {e₁ e₂ : Bool} {x : Scanner α} {read : Bytes}
    (hread : StaysOpen e₁ read e₂) (h : KeepsOpen e₂ x) (rest : Bytes) :
    match x rest with
    | .ok _ rest' => ∃ read', read ++ rest = read' ++ rest' ∧ StaysOpen e₁ read' false
    | .error _ rest' => ∃ read' e, read ++ rest = read' ++ rest' ∧ StaysOpen e₁ read' e := by
  have h' := h rest
  cases hrun : x rest with
  | error fault rest' =>
    rw [hrun] at h'
    obtain ⟨read', e, rfl, hread'⟩ := h'
    exact ⟨read ++ read', e, (List.append_assoc _ _ _).symm, hread.append hread'⟩
  | ok b rest' =>
    rw [hrun] at h'
    obtain ⟨read', rfl, hread'⟩ := h'
    exact ⟨read ++ read', (List.append_assoc _ _ _).symm, hread.append hread'⟩

theorem keepsOpen_hexGroup : KeepsOpen false hexGroup := by
  intro text
  cases hrun : hexGroup text with
  | ok n rest =>
    obtain ⟨g, rfl, -⟩ := hexGroup_eq_ok hrun
    exact ⟨g.text, rfl, Place.staysOpen_hex g⟩
  | error fault rest =>
    have hrest : rest = text := by
      rcases text with _ | ⟨a, _ | ⟨b, _ | ⟨c, _ | ⟨d, tail⟩⟩⟩⟩
      · cases hrun; rfl
      · cases hrun; rfl
      · cases hrun; rfl
      · cases hrun; rfl
      · rw [hexGroup_cons] at hrun
        split at hrun
        · cases hrun
        · cases hrun; rfl
    exact ⟨[], false, hrest ▸ rfl, .nil false⟩

theorem keepsOpen_lowSurrogate : KeepsOpen false lowSurrogate := by
  intro text
  by_cases h : ∃ rest, text = Byte.backslash :: 0x75 :: rest
  · obtain ⟨rest, rfl⟩ := h
    exact KeepsOpen.behind (x := hexGroup >>= fun low => if isLowSurrogate low then pure low
        else throw .invalidLowSurrogate)
      (StaysOpen.backslash.append (StaysOpen.escaped 0x75))
      (keepsOpen_hexGroup.bind fun _ => .ite (keepsOpen_pure _) (keepsOpen_throw _ _)) _
  · rw [lowSurrogate_missing h]
    exact ⟨[], false, rfl, .nil false⟩

theorem keepsOpen_codePoint : KeepsOpen false codePoint :=
  keepsOpen_hexGroup.bind fun _ =>
    .ite (keepsOpen_lowSurrogate.bind fun _ => keepsOpen_pure _)
      (.ite (keepsOpen_throw _ _) (keepsOpen_pure _))

theorem keepsOpen_escape : KeepsOpen true escape := by
  intro text
  rcases text with _ | ⟨b, rest⟩
  · exact ⟨[], true, rfl, .nil true⟩
  · cases hb : escaped? b with
    | some c =>
      rw [escape_short hb]
      exact ⟨[b], rfl, .escaped b⟩
    | none =>
      by_cases hu : b = 0x75
      · subst hu
        exact KeepsOpen.behind (x := codePoint >>= fun n => pure (Utf8.encode n))
          (StaysOpen.escaped 0x75) (keepsOpen_codePoint.bind fun _ => keepsOpen_pure _) rest
      · rw [escape_unknown hb hu]
        exact ⟨[], true, rfl, .nil true⟩

theorem staysOpen_run {read : Bytes} (h : ∀ b ∈ read, isPlain b = true) :
    StaysOpen false read false := .run fun b hb => Place.isPlain_spec (h b hb)

/-- A literal in which a fault is found is not complete. -/
theorem pieces_eq_error {fuel : Nat} {text rest : Bytes} {fault : Fault}
    (h : pieces fuel text = .error fault rest) :
    ∃ read e, text = read ++ rest ∧ StaysOpen false read e := by
  induction fuel generalizing text with
  | zero =>
    cases h
    exact ⟨[], false, rfl, .nil false⟩
  | succ fuel ih =>
    have hopen := staysOpen_run fun b (hb : b ∈ text.takeWhile isPlain) =>
      List.mem_takeWhile_imp hb
    have htext := List.takeWhile_append_dropWhile (p := isPlain) (l := text)
    rw [pieces_succ] at h
    generalize text.takeWhile isPlain = run at h hopen htext
    cases hd : text.dropWhile isPlain with
    | nil =>
      rw [hd] at h htext
      cases h
      exact ⟨run, false, htext.symm, hopen⟩
    | cons b tail =>
      rw [hd] at h htext
      simp only at h
      split_ifs at h with hq hb
      · have hescape := KeepsOpen.behind (hopen.append StaysOpen.backslash) keepsOpen_escape tail
        rw [List.append_assoc, List.singleton_append, ← hb, htext] at hescape
        cases he : escape tail with
        | error fault' rest' =>
          rw [he] at h hescape
          cases h
          exact hescape
        | ok spelled rest' =>
          rw [he] at h hescape
          obtain ⟨read, hread, hstays⟩ := hescape
          simp only at h
          cases hp : pieces fuel rest' with
          | ok more s =>
            rw [hp] at h
            cases h
          | error fault' s =>
            rw [hp] at h
            cases h
            obtain ⟨read', e, rfl, hstays'⟩ := ih hp
            exact ⟨read ++ read', e, by rw [hread, List.append_assoc], hstays.append hstays'⟩
      · cases h
        exact ⟨run, false, htext.symm, hopen⟩

theorem content_eq_error {text rest : Bytes} {fault : Fault}
    (h : content text = .error fault rest) :
    ∃ read e, text = read ++ rest ∧ StaysOpen false read e := by
  rw [content_eq_pieces] at h
  exact pieces_eq_error h

end StringLiteral
end JsonCodec
