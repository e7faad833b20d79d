import Mathlib
import JsonCodec.Proofs.Grammar.Walk

set_option autoImplicit false

namespace JsonCodec.Grammar

namespace Place

def isOutside : Place → Bool
  | outside _ _ => true
  | literal _ _ _ _ => false

def skips (p : Place) (b : UInt8) : Bool := p.isOutside && Byte.isSpace b

def stripped : Place → Bytes → Bytes
  | _, [] => []
  | p, b :: rest => if p.skips b then (p.next b).stripped rest else b :: (p.next b).stripped rest

end Place

/-- A text without the blanks outside of its literals. -/
def withoutBlanks (text : Bytes) : Bytes := Place.start.stripped text

/-- No blank of a text stands outside of its literals. -/
def Unspaced (text : Bytes) : Prop :=
  ∀ before b after, text = before ++ b :: after →
    (Place.start.after before).isOutside = true → Byte.isSpace b = false

namespace Place

theorem next_of_skips {p : Place} {b : UInt8} (h : p.skips b = true) : p.next b = p := by
  cases p with
  | outside nest atKey => exact next_neutral nest atKey (isStructural_space h)
  | literal nest isKey raw escaped => cases h

theorem stripped_append (p : Place) (a b : Bytes) :
    p.stripped (a ++ b) = p.stripped a ++ (p.after a).stripped b := by
  induction a generalizing p with
  | nil => rfl
  | cons c a ih =>
    have hafter : p.after (c :: a) = (p.next c).after a := rfl
    rw [List.cons_append, stripped, stripped, ih, hafter]
    split_ifs
    · rfl
    · rfl

/-- Bytes that are dropped change nothing for those behind them. -/
theorem stripped_unspaced (p : Place) (text : Bytes) {before after : Bytes} {b : UInt8}
    (h : p.stripped text = before ++ b :: after) (hout : (p.after before).isOutside = true) :
    Byte.isSpace b = false := by
  induction text generalizing p before with
  | nil => simp [stripped] at h
  | cons c text ih =>
    rw [stripped] at h
    split_ifs at h with hc
    · rw [next_of_skips hc] at h
      exact ih p h hout
    · cases before with
      | nil =>
        obtain rfl := (List.cons.inj h).1
        exact Bool.eq_false_iff.2 fun hb => hc (Bool.and_eq_true_iff.2 ⟨hout, hb⟩)
      | cons d before =>
        obtain ⟨rfl, hrest⟩ := List.cons.inj h
        exact ih (p.next c) hrest hout

end Place

theorem unspaced_withoutBlanks (text : Bytes) : Unspaced (withoutBlanks text) :=
  fun _ _ _ => Place.stripped_unspaced Place.start text

mutual

def Tree.bare : Tree → Bytes
  | .token t => t.text
  | .empty c _ => [openingByte c, c.close]
  | .array items => Byte.openBracket :: (items.bare ++ [Byte.closeBracket])
  | .object members => Byte.openBrace :: (members.bare ++ [Byte.closeBrace])

def Items.bare : Items → Bytes
  | .last _ item _ => item.bare
  | .more _ item _ rest => item.bare ++ Byte.comma :: rest.bare

def Members.bare : Members → Bytes
  | .last name _ value _ => (Token.string name.pieces).text ++ Byte.colon :: value.bare
  | .more name _ value _ rest =>
    (Token.string name.pieces).text ++ Byte.colon :: (value.bare ++ Byte.comma :: rest.bare)

end

namespace Place

variable {p q r : Place} {a b a' b' : Bytes} {nest : List Container}

structure Leaves (p q : Place) (text left : Bytes) : Prop where
  after : p.after text = q
  stripped : p.stripped text = left

theorem Leaves.append (ha : Leaves p q a a') (hb : Leaves q r b b') :
    Leaves p r (a ++ b) (a' ++ b') := by
  obtain ⟨rfl, rfl⟩ := ha
  obtain ⟨rfl, rfl⟩ := hb
  exact ⟨after_append p a b, stripped_append p a b⟩

theorem leaves_byte {b : UInt8} (h : p.skips b = false) : Leaves p (p.next b) [b] [b] := by
  refine ⟨rfl, ?_⟩
  rw [stripped, h]
  rfl

theorem leaves_blanks {atKey : Bool} (blanks : Blanks) :
    Leaves (outside nest atKey) (outside nest atKey) blanks.text [] := by
  obtain ⟨text, hspace⟩ := blanks
  induction text with
  | nil => exact ⟨rfl, rfl⟩
  | cons b text ih =>
    have hb : (outside nest atKey).skips b = true := hspace b List.mem_cons_self
    have hbyte : Leaves (outside nest atKey) (outside nest atKey) [b] [] := by
      refine ⟨next_of_skips hb, ?_⟩
      rw [stripped, if_pos hb]
      rfl
    exact hbyte.append (ih fun c hc => hspace c (List.mem_cons_of_mem b hc))

theorem leaves_neutral {atKey : Bool} {text : Bytes}
    (h : ∀ b ∈ text, isStructural b = false ∧ Byte.isSpace b = false) :
    Leaves (outside nest atKey) (outside nest atKey) text text := by
  induction text with
  | nil => exact ⟨rfl, rfl⟩
  | cons b text ih =>
    obtain ⟨hneutral, hspace⟩ := h b List.mem_cons_self
    have hbyte := @leaves_byte (outside nest atKey) b hspace
    rw [next_neutral nest atKey hneutral] at hbyte
    exact hbyte.append (ih fun c hc => h c (List.mem_cons_of_mem b hc))

theorem isSpace_numeral (n : Numeral) : ∀ b ∈ n.text, Byte.isSpace b = false := by
  intro b hb
  rcases n.mem_cases hb with hb | hb | hb | rfl
  · exact (opens_digit hb).1
  · rcases isSign_cases hb with rfl | rfl <;> decide
  · rcases isExponentMark_cases hb with rfl | rfl <;> decide
  · decide

section

variable {isKey : Bool} {raw : Bytes}

theorem StaysOpen.leaves {e e' : Bool} {b : UInt8} (h : StaysOpen e [b] e') :
    Leaves (literal nest isKey raw e) (literal nest isKey (raw ++ [b]) e') [b] [b] :=
  ⟨(h nest isKey raw).1, rfl⟩

theorem Leaves.literal_append {e : Bool}
    (ha : Leaves (literal nest isKey raw false) (literal nest isKey (raw ++ a) e) a a)
    (hb : Leaves (literal nest isKey (raw ++ a) e) (literal nest isKey (raw ++ a ++ b) false) b b) :
    Leaves (literal nest isKey raw false) (literal nest isKey (raw ++ (a ++ b)) false)
      (a ++ b) (a ++ b) := by
  rw [← List.append_assoc]
  exact ha.append hb

theorem leaves_run {read : Bytes} (h : ∀ b ∈ read, b ≠ Byte.quote ∧ b ≠ Byte.backslash) :
    Leaves (literal nest isKey raw false) (literal nest isKey (raw ++ read) false) read read := by
  induction read generalizing raw with
  | nil => exact ⟨(StaysOpen.nil false nest isKey raw).1, rfl⟩
  | cons b read ih =>
    have hb := h b List.mem_cons_self
    exact (StaysOpen.ordinary hb.1 hb.2).leaves.literal_append
      (ih fun c hc => h c (List.mem_cons_of_mem b hc))

theorem leaves_piece (p : Piece) :
    Leaves (literal nest isKey raw false) (literal nest isKey (raw ++ p.text) false)
      p.text p.text := by
  cases p with
  | plain b h => exact leaves_run (List.forall_mem_singleton.2 (isPlain_spec h))
  | short letter b h =>
    exact StaysOpen.backslash.leaves.literal_append (StaysOpen.escaped letter).leaves
  | unit g =>
    have hletter := StaysOpen.backslash.leaves.literal_append
      (@StaysOpen.leaves nest isKey (raw ++ [Byte.backslash]) _ _ _ (.escaped 0x75))
    exact hletter.literal_append (leaves_run fun b hb => isHex_spec (g.isHex b hb))

theorem leaves_join (ps : List Piece) :
    Leaves (literal nest isKey raw false) (literal nest isKey (raw ++ Piece.join ps) false)
      (Piece.join ps) (Piece.join ps) := by
  induction ps generalizing raw with
  | nil => exact ⟨(StaysOpen.nil false nest isKey raw).1, rfl⟩
  | cons p ps ih => exact (leaves_piece p).literal_append ih

end

theorem leaves_string (ps : List Piece) (isKey : Bool) :
    Leaves (outside nest isKey) (outside nest false) (Token.string ps).text
      (Token.string ps).text :=
  have hquote : Leaves (outside nest isKey) (literal nest isKey [] false) [Byte.quote]
      [Byte.quote] := ⟨rfl, rfl⟩
  hquote.append ((leaves_join ps).append ⟨rfl, rfl⟩)

theorem leaves_token (k : Token) :
    Leaves (outside nest false) (outside nest false) k.text k.text := by
  cases k with
  | word w => exact leaves_neutral (by cases w <;> decide +kernel)
  | numeral n =>
    exact leaves_neutral fun b hb => ⟨isStructural_numeral n b hb, isSpace_numeral n b hb⟩
  | string ps => exact leaves_string ps false

theorem leaves_comma (c : Container) :
    Leaves (outside (c :: nest) false) (outside (c :: nest) (c == .object)) [Byte.comma]
      [Byte.comma] := ⟨next_comma c false, rfl⟩

theorem leaves_name (n : Name) :
    Leaves (outside (.object :: nest) true) (outside (.object :: nest) false) n.text
      ((Token.string n.pieces).text ++ [Byte.colon]) := by
  have hcolon : Leaves (outside (.object :: nest) false) (outside (.object :: nest) false)
      [Byte.colon] [Byte.colon] := ⟨rfl, rfl⟩
  have hname := (((leaves_blanks n.before).append (leaves_string n.pieces true)).append
    (leaves_blanks n.between)).append hcolon
  rwa [List.nil_append, List.append_nil] at hname

theorem leaves_between {text left : Bytes} (before after : Blanks)
    (h : Leaves (outside nest false) (outside nest false) text left) :
    Leaves (outside nest false) (outside nest false) (before.text ++ text ++ after.text) left := by
  have hvalue := ((leaves_blanks before).append h).append (leaves_blanks after)
  rwa [List.nil_append, List.append_nil] at hvalue

theorem leaves_bracketed (c : Container) {text left : Bytes} {atKey : Bool}
    (h : Leaves (outside (c :: nest) (c == .object)) (outside (c :: nest) atKey) text left) :
    Leaves (outside nest false) (outside nest false) (openingByte c :: (text ++ [c.close]))
      (openingByte c :: (left ++ [c.close])) := by
  have hopening : Leaves (outside nest false) (outside (c :: nest) (c == .object))
      [openingByte c] [openingByte c] := ⟨next_opening c false, by cases c <;> rfl⟩
  have hclose : Leaves (outside (c :: nest) atKey) (outside nest false) [c.close] [c.close] :=
    ⟨next_close c atKey, by cases c <;> rfl⟩
  exact hopening.append (h.append hclose)

mutual

theorem leaves_tree (t : Tree) (nest : List Container) :
    Leaves (outside nest false) (outside nest false) t.text t.bare := by
  match t with
  | .token k =>
    rw [Tree.text, Tree.bare]
    exact leaves_token k
  | .empty c blanks =>
    rw [Tree.text, Tree.bare]
    exact leaves_bracketed c (leaves_blanks blanks)
  | .array items =>
    rw [Tree.text, Tree.bare]
    exact leaves_bracketed .array (leaves_items items nest)
  | .object members =>
    rw [Tree.text, Tree.bare]
    exact leaves_bracketed .object (leaves_members members nest)

theorem leaves_items (is : Items) (nest : List Container) :
    Leaves (outside (.array :: nest) false) (outside (.array :: nest) false) is.text is.bare := by
  match is with
  | .last before item after =>
    rw [Items.text, Items.bare]
    exact leaves_between before after (leaves_tree item (.array :: nest))
  | .more before item after rest =>
    rw [Items.text, Items.bare]
    exact (leaves_between before after (leaves_tree item (.array :: nest))).append
      ((leaves_comma .array).append (leaves_items rest nest))

theorem leaves_members (ms : Members) (nest : List Container) :
    Leaves (outside (.object :: nest) true) (outside (.object :: nest) false) ms.text
      ms.bare := by
  match ms with
  | .last name before value after =>
    have hvalue := (leaves_name name).append
      (leaves_between before after (leaves_tree value (.object :: nest)))
    rw [Members.text, Members.bare]
    simpa only [List.append_assoc, List.cons_append, List.nil_append] using hvalue
  | .more name before value after rest =>
    have hvalue := ((leaves_name name).append
      (leaves_between before after (leaves_tree value (.object :: nest)))).append
        ((leaves_comma .object).append (leaves_members rest nest))
    rw [Members.text, Members.bare]
    simpa only [List.append_assoc, List.cons_append, List.nil_append] using hvalue

end

end Place

/-- Without blanks the text of a tree is the text without blanks. -/
theorem withoutBlanks_tree (before : Blanks) (t : Tree) (after : Blanks) :
    withoutBlanks (before.text ++ t.text ++ after.text) = t.bare :=
  (Place.leaves_between before after (Place.leaves_tree t [])).stripped

/-- A blank behind an escaped quote still belongs to its literal. -/
example : withoutBlanks (Bytes.ascii "[\n  \"a\\\" \", [ ]\t]\r\n") =
    Bytes.ascii "[\"a\\\" \",[]]" := by
  decide +kernel

def lineBreak (level : Nat) : Bytes := Byte.newline :: List.replicate (2 * level) Byte.space

mutual

/-- Inside so many containers a tree is written in lines, and there are no other blanks in it. -/
def Tree.Indented (level : Nat) : Tree → Prop
  | .token _ => True
  | .empty _ blanks => blanks.text = []
  | .array items => items.Indented level
  | .object members => members.Indented level

def Items.Indented (level : Nat) : Items → Prop
  | .last before item after =>
    before.text = lineBreak (level + 1) ∧ item.Indented (level + 1) ∧
      after.text = lineBreak level
  | .more before item after rest =>
    before.text = lineBreak (level + 1) ∧ item.Indented (level + 1) ∧ after.text = [] ∧
      rest.Indented level

def Members.Indented (level : Nat) : Members → Prop
  | .last name before value after =>
    name.before.text = lineBreak (level + 1) ∧ name.between.text = [] ∧
      before.text = [Byte.space] ∧ value.Indented (level + 1) ∧ after.text = lineBreak level
  | .more name before value after rest =>
    name.before.text = lineBreak (level + 1) ∧ name.between.text = [] ∧
      before.text = [Byte.space] ∧ value.Indented (level + 1) ∧ after.text = [] ∧
      rest.Indented level

end

end JsonCodec.Grammar
