import Mathlib
import JsonCodec.Proofs.Decode.Passage
import JsonCodec.Proofs.Grammar.Ends

set_option autoImplicit false

namespace JsonCodec.Grammar

mutual

def Tree.names : Tree → List Name
  | .token _ => []
  | .empty _ _ => []
  | .array items => items.names
  | .object members => members.names

def Items.names : Items → List Name
  | .last _ item _ => item.names
  | .more _ item _ rest => item.names ++ rest.names

def Members.names : Members → List Name
  | .last name _ value _ => name :: value.names
  | .more name _ value _ rest => name :: (value.names ++ rest.names)

end

namespace Place

variable {p q r : Place} {a b : Bytes} {ks ks' : List Bytes} {m m' : Nat} {nest : List Container}

/-- A text leads from one place to another, completes some keys, and has so many containers open
where it has most of them open. -/
structure Leads (p q : Place) (text : Bytes) (ks : List Bytes) (most : Nat) : Prop where
  after : p.after text = q
  keys : p.keys text = ks
  within : ∀ limit, p.Within limit text ↔ most ≤ limit

theorem Leads.append (ha : Leads p q a ks m) (hb : Leads q r b ks' m') :
    Leads p r (a ++ b) (ks ++ ks') (max m m') := by
  obtain ⟨rfl, rfl, hwithin⟩ := ha
  obtain ⟨rfl, rfl, hwithin'⟩ := hb
  refine ⟨after_append p a b, keys_append p a b, fun limit => ?_⟩
  rw [within_append, hwithin, hwithin', max_le_iff]

theorem Leads.most_eq (h : Leads p q a ks m) (hm : m = m') : Leads p q a ks m' := hm ▸ h

theorem leads_byte {b : UInt8} (h : p.completed b = []) :
    Leads p (p.next b) [b] [] (max p.depth (p.next b).depth) :=
  ⟨rfl, by rw [keys, h]; rfl, fun _ => max_le_iff.symm⟩

theorem leads_neutral {atKey : Bool} (h : ∀ b ∈ a, isStructural b = false) :
    Leads (outside nest atKey) (outside nest atKey) a [] nest.length := by
  obtain ⟨hafter, hkeys⟩ := neutral nest atKey h
  exact ⟨hafter, hkeys, fun _ => within_neutral h⟩

theorem leads_blanks {atKey : Bool} (blanks : Blanks) :
    Leads (outside nest atKey) (outside nest atKey) blanks.text [] nest.length :=
  leads_neutral fun b hb => isStructural_space (blanks.isSpace b hb)

theorem leads_comma (c : Container) :
    Leads (outside (c :: nest) false) (outside (c :: nest) (c == .object)) [Byte.comma] []
      (nest.length + 1) := by
  rw [← next_comma c false]
  refine (leads_byte rfl).most_eq ?_
  rw [next_comma]
  exact max_self _

theorem leads_close (c : Container) {atKey : Bool} :
    Leads (outside (c :: nest) atKey) (outside nest false) [c.close] [] (nest.length + 1) := by
  rw [← next_close c atKey]
  refine (leads_byte rfl).most_eq ?_
  rw [next_close]
  exact max_eq_left (Nat.le_succ _)

theorem leads_opening (c : Container) {atKey : Bool} :
    Leads (outside nest atKey) (outside (c :: nest) (c == .object)) [openingByte c] []
      (nest.length + 1) := by
  have hkeys : (outside nest atKey).completed (openingByte c) = [] := rfl
  rw [← next_opening c atKey]
  refine (leads_byte hkeys).most_eq ?_
  rw [next_opening]
  exact max_eq_right (Nat.le_succ _)

theorem leads_string {ps : List Piece} (h : Piece.Paired false ps) (isKey : Bool) :
    Leads (outside nest isKey) (outside nest false) (Token.string ps).text
      (if isKey then [Piece.spelled none ps] else []) nest.length := by
  have hnone : (outside nest isKey).completed Byte.quote = [] := rfl
  have hquote : Leads (outside nest isKey) (literal nest isKey [] false) [Byte.quote] []
      (max nest.length nest.length) := leads_byte hnone
  obtain ⟨hafter, hkeys⟩ := literal_join nest h isKey
  have hbody : Leads (literal nest isKey [] false) (outside nest false)
      (Piece.join ps ++ [Byte.quote]) (if isKey then [Piece.spelled none ps] else [])
      nest.length := ⟨hafter, hkeys, fun _ => within_join ps isKey⟩
  exact (hquote.append hbody).most_eq (by omega)

theorem isStructural_numeral (n : Numeral) : ∀ b ∈ n.text, isStructural b = false := by
  intro b hb
  rcases n.mem_cases hb with hb | hb | hb | rfl
  · exact isStructural_digit hb
  · exact isStructural_sign hb
  · exact isStructural_mark hb
  · decide

theorem isStructural_word (w : Word) : ∀ b ∈ w.text, isStructural b = false := by
  cases w <;> decide +kernel

theorem leads_token {k : Token} (h : k.SurrogatesPaired) :
    Leads (outside nest false) (outside nest false) k.text [] nest.length := by
  cases k with
  | word w => exact leads_neutral (isStructural_word w)
  | numeral n => exact leads_neutral (isStructural_numeral n)
  | string ps => exact leads_string h false

theorem leads_name {n : Name} (h : Piece.Paired false n.pieces) :
    Leads (outside (.object :: nest) true) (outside (.object :: nest) false) n.text [n.key]
      (nest.length + 1) := by
  have hcolon : Leads (outside (.object :: nest) false) (outside (.object :: nest) false)
      [Byte.colon] [] (nest.length + 1) := leads_neutral (by decide +kernel)
  have hname := (((leads_blanks n.before).append (leads_string h true)).append
    (leads_blanks n.between)).append hcolon
  exact hname.most_eq (by simp only [List.length_cons]; omega)

theorem leads_between {text : Bytes} (before after : Blanks)
    (h : Leads (outside nest false) (outside nest false) text ks (nest.length + m)) :
    Leads (outside nest false) (outside nest false) (before.text ++ text ++ after.text) ks
      (nest.length + m) := by
  have hvalue := ((leads_blanks before).append h).append (leads_blanks after)
  rw [List.nil_append, List.append_nil] at hvalue
  exact hvalue.most_eq (by omega)

theorem leads_bracketed (c : Container) {text : Bytes} {atKey : Bool}
    (h : Leads (outside (c :: nest) (c == .object)) (outside (c :: nest) atKey) text ks
      (nest.length + 1 + m)) :
    Leads (outside nest false) (outside nest false) (openingByte c :: (text ++ [c.close])) ks
      (nest.length + (m + 1)) := by
  have hclose := h.append (leads_close c)
  rw [List.append_nil] at hclose
  exact ((leads_opening c).append hclose).most_eq (by omega)

mutual

theorem leads_tree (t : Tree) (h : ∀ k ∈ t.tokens, k.SurrogatesPaired) (nest : List Container) :
    Leads (outside nest false) (outside nest false) t.text (t.names.map Name.key)
      (nest.length + t.depth) := by
  match t with
  | .token k =>
    rw [Tree.text, Tree.names, Tree.depth]
    exact leads_token (h k (by simp [Tree.tokens]))
  | .empty c blanks =>
    rw [Tree.text, Tree.names, Tree.depth]
    exact leads_bracketed c (m := 0) (leads_blanks blanks)
  | .array items =>
    rw [Tree.tokens] at h
    rw [Tree.text, Tree.names, Tree.depth]
    exact leads_bracketed .array (leads_items items h nest)
  | .object members =>
    rw [Tree.tokens] at h
    rw [Tree.text, Tree.names, Tree.depth]
    exact leads_bracketed .object (leads_members members h nest)

theorem leads_items (is : Items) (h : ∀ k ∈ is.tokens, k.SurrogatesPaired)
    (nest : List Container) :
    Leads (outside (.array :: nest) false) (outside (.array :: nest) false) is.text
      (is.names.map Name.key) (nest.length + 1 + is.depth) := by
  match is with
  | .last before item after =>
    rw [Items.tokens] at h
    rw [Items.text, Items.names, Items.depth]
    exact leads_between before after (leads_tree item h (.array :: nest))
  | .more before item after rest =>
    rw [Items.tokens, List.forall_mem_append] at h
    have hitem := leads_between before after (leads_tree item h.1 (.array :: nest))
    rw [Items.text, Items.names, Items.depth, List.map_append]
    refine (hitem.append ((leads_comma .array).append (leads_items rest h.2 nest))).most_eq ?_
    simp only [List.length_cons]
    omega

theorem leads_members (ms : Members) (h : ∀ k ∈ ms.tokens, k.SurrogatesPaired)
    (nest : List Container) :
    Leads (outside (.object :: nest) true) (outside (.object :: nest) false) ms.text
      (ms.names.map Name.key) (nest.length + 1 + ms.depth) := by
  match ms with
  | .last name before value after =>
    rw [Members.tokens, List.forall_mem_cons] at h
    have hvalue := (leads_name h.1).append
      (leads_between before after (leads_tree value h.2 (.object :: nest)))
    have htext : name.text ++ (before.text ++ value.text ++ after.text) =
        (Members.last name before value after).text := by
      simp only [Members.text, List.append_assoc]
    rw [← htext, Members.names, Members.depth]
    refine hvalue.most_eq ?_
    simp only [List.length_cons]
    omega
  | .more name before value after rest =>
    rw [Members.tokens, List.forall_mem_cons, List.forall_mem_append] at h
    have hvalue := (leads_name h.1).append
      (leads_between before after (leads_tree value h.2.1 (.object :: nest)))
    have htext : name.text ++ (before.text ++ value.text ++ after.text) ++
        ([Byte.comma] ++ rest.text) = (Members.more name before value after rest).text := by
      simp only [Members.text, List.append_assoc, List.singleton_append]
    rw [← htext, Members.names, Members.depth, List.map_cons, List.map_append]
    refine (hvalue.append ((leads_comma .object).append (leads_members rest h.2.2 nest))).most_eq ?_
    simp only [List.length_cons]
    omega

end

end Place

/-- In a text that the grammar derives the keys are the names of the members. -/
theorem keyLiterals_tree {t : Tree} (h : ∀ k ∈ t.tokens, k.SurrogatesPaired)
    (before after : Blanks) :
    keyLiterals (before.text ++ t.text ++ after.text) = t.names.map Name.key :=
  (Place.leads_between before after (Place.leads_tree t h [])).keys

/-- At no point of its text are more containers open than a tree is deep, and at some point as
many. Siblings do not add up, and it does not matter which members the value keeps. -/
theorem openAt_tree {t : Tree} (h : ∀ k ∈ t.tokens, k.SurrogatesPaired) (before after : Blanks)
    (limit : Nat) :
    (∀ k, openAt (before.text ++ t.text ++ after.text) k ≤ limit) ↔ t.depth ≤ limit := by
  have hleads := Place.leads_between before after (Place.leads_tree t h [])
  rw [List.length_nil, Nat.zero_add] at hleads
  exact (Place.within_iff _ _).symm.trans (hleads.within limit)

/-- In a text that breaks off only the keys count that are complete. -/
example : keyLiterals (Bytes.ascii "\x7b\"a\": [\"b\", \x7b\"a\": 1\x7d], \"c\", \"\\u0064\": x, \"e") =
    [Bytes.ascii "a", Bytes.ascii "a", Bytes.ascii "c", Bytes.ascii "d"] := by
  decide +kernel

end JsonCodec.Grammar
