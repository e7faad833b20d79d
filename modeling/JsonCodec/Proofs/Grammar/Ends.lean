import Mathlib
import JsonCodec.Proofs.Grammar.Tree

set_option autoImplicit false

namespace JsonCodec.Grammar

def Opens (b : UInt8) : Prop :=
  Byte.isSpace b = false ∧ b ≠ Byte.closeBracket ∧ b ≠ Byte.closeBrace ∧ b ≠ Byte.comma

instance (b : UInt8) : Decidable (Opens b) :=
  inferInstanceAs (Decidable (_ ∧ _ ∧ _ ∧ _))

theorem opens_digit {b : UInt8} (h : Byte.isDigit b = true) : Opens b := by
  revert b
  decide +kernel

theorem Token.exists_opens (t : Token) : ∃ b tail, t.text = b :: tail ∧ Opens b := by
  cases t with
  | word w => cases w <;> exact ⟨_, _, rfl, by decide⟩
  | numeral n =>
    rw [Token.text, Numeral.text, Numeral.signText]
    cases n.negative with
    | true => exact ⟨Byte.minus, _, rfl, by decide⟩
    | false => exact ⟨_, _, rfl, opens_digit (n.whole.isDigit _ List.mem_cons_self)⟩
  | string ps => exact ⟨Byte.quote, _, rfl, by decide⟩

theorem Tree.exists_opens (t : Tree) : ∃ b tail, t.text = b :: tail ∧ Opens b := by
  cases t with
  | token t =>
    unfold Tree.text
    exact t.exists_opens
  | empty c blanks =>
    unfold Tree.text
    exact ⟨_, _, rfl, by cases c <;> decide⟩
  | array items =>
    unfold Tree.text
    exact ⟨_, _, rfl, by decide⟩
  | object members =>
    unfold Tree.text
    exact ⟨_, _, rfl, by decide⟩

theorem Tree.notAhead_space (t : Tree) (rest : Bytes) :
    NotAhead Byte.isSpace (t.text ++ rest) := by
  obtain ⟨b, tail, ht, hb⟩ := t.exists_opens
  rw [ht]
  simpa [NotAhead] using hb.1

def Tree.Ends (extent : Extent) (rest : Bytes) : Tree → Prop
  | .token t => t.Ends extent rest
  | _ => True

def Stops (rest : Bytes) : Prop :=
  NotAhead Byte.isDigit rest ∧ NotAhead (· == Byte.point) rest ∧
    NotAhead Byte.isExponentMark rest

theorem stops_nil : Stops [] := by simp [Stops, NotAhead]

theorem stops_cons {b : UInt8} (hd : Byte.isDigit b = false) (hp : (b == Byte.point) = false)
    (hm : Byte.isExponentMark b = false) (rest : Bytes) : Stops (b :: rest) := by
  simpa [Stops, NotAhead] using ⟨hd, by simpa using hp, hm⟩

theorem stops_space {b : UInt8} (h : Byte.isSpace b = true) (rest : Bytes) : Stops (b :: rest) := by
  rcases isSpace_cases h with rfl | rfl | rfl | rfl <;>
    exact stops_cons (by decide) (by decide) (by decide) rest

theorem stops_blanks (blanks : Blanks) {rest : Bytes} (h : Stops rest) :
    Stops (blanks.text ++ rest) := by
  cases ht : blanks.text with
  | nil => exact h
  | cons b more => exact stops_space (blanks.isSpace b (by simp [ht])) _

theorem stops_comma (rest : Bytes) : Stops (Byte.comma :: rest) :=
  stops_cons (by decide) (by decide) (by decide) rest

theorem stops_close (c : Container) (rest : Bytes) : Stops (c.close :: rest) := by
  cases c <;> exact stops_cons (by decide) (by decide) (by decide) rest

theorem Stops.noExponentAhead {rest : Bytes} (h : Stops rest) (extent : Extent) :
    NoExponentAhead extent rest := by
  rintro b tail rfl
  rw [h.2.2 b rfl, Bool.false_and]

theorem Stops.numeral {rest : Bytes} (h : Stops rest) (extent : Extent) (n : Numeral) :
    n.Ends extent rest := by
  have he := h.noExponentAhead extent
  unfold Numeral.Ends
  split
  · exact h.1
  · exact ⟨h.1, he⟩
  · exact ⟨fun _ => h.1, h.2.1, he⟩

theorem Stops.tree {rest : Bytes} (h : Stops rest) (extent : Extent) (t : Tree) :
    t.Ends extent rest := by
  cases t with
  | token t =>
    cases t with
    | word w => trivial
    | numeral n => exact h.numeral extent n
    | string ps => trivial
  | empty c blanks => trivial
  | array items => trivial
  | object members => trivial

/-- In a text that is one value a mark may not follow even if no exponent does. -/
theorem Numeral.ends_whole {n : Numeral} {rest : Bytes} (h : n.Ends .leading rest)
    (hm : n.exponent = none → NotAhead Byte.isExponentMark rest) : n.Ends .whole rest := by
  have hno (he : n.exponent = none) : NoExponentAhead .whole rest := by
    rintro b tail rfl
    rw [hm he b rfl, Bool.false_and]
  unfold Numeral.Ends at h ⊢
  split
  · rename_i he
    simpa only [he] using h
  · rename_i hf he
    simp only [hf, he] at h
    exact ⟨h.1, hno he⟩
  · rename_i hf he
    simp only [hf, he] at h
    exact ⟨h.1, h.2.1, hno he⟩

def Closes (b : UInt8) : Prop := Byte.isSpace b = false ∧ b < 0x80

instance (b : UInt8) : Decidable (Closes b) := inferInstanceAs (Decidable (_ ∧ _))

theorem closes_digit {b : UInt8} (h : Byte.isDigit b = true) : Closes b :=
  ⟨(opens_digit h).1, isDigit_ascii h⟩

theorem Digits.exists_closes (d : Digits) : ∃ init b, d.text = init ++ [b] ∧ Closes b := by
  have hne : d.text ≠ [] := by simp [Digits.text]
  exact ⟨_, _, (List.dropLast_append_getLast hne).symm,
    closes_digit (d.isDigit _ (List.getLast_mem hne))⟩

theorem exists_closes_append (front : Bytes) {text : Bytes}
    (h : ∃ init b, text = init ++ [b] ∧ Closes b) :
    ∃ init b, front ++ text = init ++ [b] ∧ Closes b := by
  obtain ⟨init, b, rfl, hb⟩ := h
  exact ⟨front ++ init, b, by rw [List.append_assoc], hb⟩

theorem Numeral.exists_closes (n : Numeral) : ∃ init b, n.text = init ++ [b] ∧ Closes b := by
  rw [Numeral.text, Numeral.unsignedText]
  apply exists_closes_append _
  cases n.exponent with
  | some e => exact exists_closes_append _ (exists_closes_append (_ :: _) e.digits.exists_closes)
  | none =>
    rw [Exponent.textOf, List.append_nil]
    cases n.fraction with
    | some d => exact exists_closes_append _ (exists_closes_append [_] d.exists_closes)
    | none =>
      rw [Digits.pointTextOf, List.append_nil]
      exact n.whole.exists_closes

theorem Token.exists_closes (t : Token) : ∃ init b, t.text = init ++ [b] ∧ Closes b := by
  cases t with
  | word w => cases w <;> exact ⟨_, _, (List.dropLast_append_getLast (by decide)).symm, by decide⟩
  | numeral n => exact n.exists_closes
  | string ps => exact ⟨Byte.quote :: Piece.join ps, Byte.quote, rfl, by decide⟩

theorem Tree.exists_closes (t : Tree) : ∃ init b, t.text = init ++ [b] ∧ Closes b := by
  cases t with
  | token t =>
    unfold Tree.text
    exact t.exists_closes
  | empty c blanks =>
    unfold Tree.text
    exact ⟨openingByte c :: blanks.text, c.close, rfl, by cases c <;> decide⟩
  | array items =>
    unfold Tree.text
    exact ⟨Byte.openBracket :: items.text, Byte.closeBracket, rfl, by decide⟩
  | object members =>
    unfold Tree.text
    exact ⟨Byte.openBrace :: members.text, Byte.closeBrace, rfl, by decide⟩

/-- Items start with blanks and a byte of the first of them, and each has such a byte. -/
theorem Items.exists_body (scalar : Token → Value) (is : Items) :
    ∃ (blanks : Blanks) (b : UInt8) (body : Bytes), is.text = blanks.text ++ b :: body ∧
      Opens b ∧ (is.values scalar).length ≤ body.length + 1 := by
  match is with
  | .last before item after =>
    obtain ⟨b, tail, ht, hb⟩ := item.exists_opens
    refine ⟨before, b, tail ++ after.text, ?_, hb, ?_⟩
    · simp [Items.text, ht]
    · simp [Items.values]
  | .more before item after rest =>
    obtain ⟨b, tail, ht, hb⟩ := item.exists_opens
    obtain ⟨blanks, b', body, hbody, -, hlen⟩ := Items.exists_body scalar rest
    refine ⟨before, b, tail ++ after.text ++ Byte.comma :: rest.text, ?_, hb, ?_⟩
    · simp [Items.text, ht]
    · simp only [Items.values, hbody, List.length_cons, List.length_append]
      omega

theorem Name.exists_quote (n : Name) :
    ∃ tail, n.text = n.before.text ++ Byte.quote :: tail :=
  ⟨_, by simp only [Name.text, Token.text, List.append_assoc, List.cons_append]; rfl⟩

theorem Members.exists_body (scalar : Token → Value) (ms : Members) :
    ∃ (blanks : Blanks) (b : UInt8) (body : Bytes), ms.text = blanks.text ++ b :: body ∧
      Opens b ∧ (ms.entries scalar).length ≤ body.length + 1 := by
  match ms with
  | .last name before value after =>
    obtain ⟨tail, ht⟩ := name.exists_quote
    refine ⟨name.before, Byte.quote, tail ++ before.text ++ value.text ++ after.text, ?_,
      by decide, ?_⟩
    · simp [Members.text, ht]
    · simp [Members.entries]
  | .more name before value after rest =>
    obtain ⟨tail, ht⟩ := name.exists_quote
    obtain ⟨blanks, b', body, hbody, -, hlen⟩ := Members.exists_body scalar rest
    refine ⟨name.before, Byte.quote,
      tail ++ before.text ++ value.text ++ after.text ++ Byte.comma :: rest.text, ?_,
      by decide, ?_⟩
    · simp [Members.text, ht]
    · simp only [Members.entries, hbody, List.length_cons, List.length_append]
      omega

end JsonCodec.Grammar
