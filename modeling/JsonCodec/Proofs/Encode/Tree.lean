import Mathlib
import JsonCodec.Proofs.Encode.Scalar
import JsonCodec.Proofs.Object

set_option autoImplicit false

namespace JsonCodec.Value
open Grammar

variable {o : EncodeOptions}

theorem isSpace_line (level : Nat) :
    ∀ b ∈ Byte.newline :: List.replicate (2 * level) Byte.space, Byte.isSpace b = true := by
  rintro b (_ | ⟨_, hb⟩)
  · rfl
  · rw [List.eq_of_mem_replicate hb]
    rfl

def lineBlanks (o : EncodeOptions) (level : Nat) : Blanks :=
  if o.indent then ⟨Byte.newline :: List.replicate (2 * level) Byte.space, isSpace_line level⟩
  else Blanks.none

def colonBlanks (o : EncodeOptions) : Blanks :=
  if o.indent then ⟨[Byte.space], fun b hb => by rw [List.mem_singleton.1 hb]; rfl⟩
  else Blanks.none

@[simp] theorem text_none : Blanks.none.text = [] := rfl

theorem take_writeSpaces (count : Nat) (out : Output) :
    (writeSpaces count out).take = out.take ++ List.replicate count Byte.space := by
  have hcount := Nat.div_add_mod' count spacesAtOnce
  have hall : List.replicate (count / spacesAtOnce * spacesAtOnce) Byte.space ++
      List.replicate (count % spacesAtOnce) Byte.space = List.replicate count Byte.space := by
    rw [← List.replicate_add, hcount]
  rw [writeSpaces, ← hall]
  split_ifs with hleft
  · rw [Output.take_repeat_append, List.flatten_replicate_replicate, hleft, List.replicate_zero,
      List.append_nil]
  · rw [Output.take_append, Output.take_repeat_append, List.flatten_replicate_replicate,
      List.append_assoc]

theorem take_startLine (level : Nat) (out : Output) :
    (startLine o level out).take = out.take ++ (lineBlanks o level).text := by
  rw [startLine, lineBlanks]
  split_ifs
  · simp [take_writeSpaces]
  · simp

theorem take_writeColon (out : Output) :
    (writeColon o out).take = out.take ++ Byte.colon :: (colonBlanks o).text := by
  rw [writeColon, colonBlanks]
  split_ifs <;> simp

theorem blanks_ascii (blanks : Blanks) : ∀ b ∈ blanks.text, b < 0x80 :=
  fun b hb => isSpace_ascii (blanks.isSpace b hb)

theorem wellFormed_blanks (blanks : Blanks) : Utf8.WellFormed blanks.text :=
  Utf8.wellFormed_ascii (blanks_ascii blanks)

theorem wellFormed_between (before after : Blanks) (text : Bytes) :
    Utf8.WellFormed (before.text ++ text ++ after.text) ↔ Utf8.WellFormed text :=
  (Utf8.wellFormed_append_ascii (blanks_ascii after)).trans
    (Utf8.wellFormed_ascii_append (blanks_ascii before))

theorem wellFormed_bracketed {a b : UInt8} (ha : a < 0x80) (hb : b < 0x80) (text : Bytes) :
    Utf8.WellFormed (a :: (text ++ [b])) ↔ Utf8.WellFormed text := by
  have htail : Utf8.WellFormed (text ++ [b]) ↔ Utf8.WellFormed text :=
    Utf8.wellFormed_append_ascii fun c hc => by rwa [List.mem_singleton.1 hc]
  rw [← htail]
  exact @Utf8.wellFormed_ascii_append [a] _ fun c hc => by rwa [List.mem_singleton.1 hc]

/-- A tree stands for a value under some options. -/
structure Shows (o : EncodeOptions) (t : Tree) (v : Value) : Prop where
  depth : t.depth = v.depth
  readable : ∀ d : DecodeOptions, d.dialect = o.dialect → d.bigInteger = none →
    ∀ k ∈ t.tokens, k.Readable d
  value : v.KeysDistinct → (t.value (Token.value none)).copy = v.settled o
  ordered : v.KeysIncrease → t.KeysIncrease
  wellFormed : Utf8.WellFormed t.text ↔ v.TextsWellFormed

structure ShowsItems (o : EncodeOptions) (is : Items) (items : List Value) : Prop where
  depth : is.depth = depthItems items
  readable : ∀ d : DecodeOptions, d.dialect = o.dialect → d.bigInteger = none →
    ∀ k ∈ is.tokens, k.Readable d
  values : (∀ v ∈ items, v.KeysDistinct) →
    (is.values (Token.value none)).map copy = items.map (settled o)
  ordered : (∀ v ∈ items, v.KeysIncrease) → is.KeysIncrease
  wellFormed : Utf8.WellFormed is.text ↔ ∀ v ∈ items, v.TextsWellFormed

structure ShowsMembers (o : EncodeOptions) (ms : Members) (members : List (Bytes × Value)) :
    Prop where
  depth : ms.depth = depthMembers members
  readable : ∀ d : DecodeOptions, d.dialect = o.dialect → d.bigInteger = none →
    ∀ k ∈ ms.tokens, k.Readable d
  keys : ms.keys = members.map Prod.fst
  entries : (∀ m ∈ members, m.2.KeysDistinct) →
    (ms.entries (Token.value none)).map (fun m => (m.1, m.2.copy)) =
      members.map fun m => (m.1, m.2.settled o)
  ordered : (∀ m ∈ members, m.2.KeysIncrease) → ms.KeysIncrease
  wellFormed : Utf8.WellFormed ms.text ↔
    ∀ m ∈ members, Utf8.WellFormed m.1 ∧ m.2.TextsWellFormed

theorem shows_token {k : Token} {v : Value} (hs : v.isScalar = true) (h : ShowsToken o k v) :
    Shows o (.token k) v where
  depth := by
    cases v with
    | array items => cases hs
    | object members => cases hs
    | _ => rfl
  readable d hdialect hbig k' hk := by
    rw [Tree.tokens, List.mem_singleton] at hk
    rw [hk]
    exact h.readable d hdialect hbig
  value _ := by
    rw [Tree.value, h.value, settled_scalar hs, copy_scalar (isScalar_settledScalar hs)]
  ordered _ := by
    rw [Tree.KeysIncrease]
    trivial
  wellFormed := h.wellFormed

theorem showsItems_last (before : Blanks) {t : Tree} {v : Value} (h : Shows o t v)
    (after : Blanks) : ShowsItems o (.last before t after) [v] where
  depth := by simp [Items.depth, depthItems, h.depth]
  readable d hdialect hbig := by
    unfold Items.tokens
    exact h.readable d hdialect hbig
  values hk := by simp [Items.values, h.value (hk v List.mem_cons_self)]
  ordered hk := by
    rw [Items.KeysIncrease]
    exact h.ordered (hk v List.mem_cons_self)
  wellFormed := by
    rw [Items.text, wellFormed_between, h.wellFormed, List.forall_mem_singleton]

theorem showsItems_more (before : Blanks) {t : Tree} {v : Value} (h : Shows o t v)
    {is : Items} {items : List Value} (hs : ShowsItems o is items) :
    ShowsItems o (.more before t Blanks.none is) (v :: items) where
  depth := by rw [Items.depth, depthItems, h.depth, hs.depth]
  readable d hdialect hbig k hk := by
    rw [Items.tokens, List.mem_append] at hk
    exact hk.elim (h.readable d hdialect hbig k) (hs.readable d hdialect hbig k)
  values hk := by
    simp only [Items.values, List.map_cons, h.value (hk v List.mem_cons_self),
      hs.values fun w hw => hk w (List.mem_cons_of_mem v hw)]
  ordered hk := by
    rw [Items.KeysIncrease]
    exact ⟨h.ordered (hk v List.mem_cons_self),
      hs.ordered fun w hw => hk w (List.mem_cons_of_mem v hw)⟩
  wellFormed := by
    rw [Items.text, Utf8.wellFormed_append_cons_iff (by decide), wellFormed_between, h.wellFormed,
      hs.wellFormed, List.forall_mem_cons]

def nameOf (o : EncodeOptions) (level : Nat) (key : Bytes) : Name :=
  ⟨lineBlanks o level, key.map StringLiteral.pieceOf, Blanks.none⟩

theorem key_nameOf (level : Nat) (key : Bytes) : (nameOf o level key).key = key :=
  StringLiteral.spelled_map_pieceOf key

theorem text_nameOf (level : Nat) (key : Bytes) :
    (nameOf o level key).text =
      (lineBlanks o level).text ++ StringLiteral.write key ++ [Byte.colon] := by
  rw [Name.text, nameOf, ← StringLiteral.write_eq, text_none, List.append_nil]

theorem wellFormed_nameOf_append (level : Nat) (key rest : Bytes) :
    Utf8.WellFormed ((nameOf o level key).text ++ rest) ↔
      Utf8.WellFormed key ∧ Utf8.WellFormed rest := by
  rw [text_nameOf, List.append_assoc, List.singleton_append,
    Utf8.wellFormed_append_cons_iff (by decide), Utf8.wellFormed_ascii_append (blanks_ascii _),
    StringLiteral.wellFormed_write_iff]

theorem readable_nameOf (level : Nat) (key : Bytes) (d : DecodeOptions) :
    (Token.string (nameOf o level key).pieces).Readable d :=
  StringLiteral.paired_map_pieceOf key

theorem showsMembers_last (level : Nat) (key : Bytes) (before : Blanks) {t : Tree} {v : Value}
    (h : Shows o t v) (after : Blanks) :
    ShowsMembers o (.last (nameOf o level key) before t after) [(key, v)] where
  depth := by simp [Members.depth, depthMembers, h.depth]
  readable d hdialect hbig k hk := by
    rw [Members.tokens, List.mem_cons] at hk
    rcases hk with rfl | hk
    · exact readable_nameOf level key d
    · exact h.readable d hdialect hbig k hk
  keys := by simp [Members.keys, key_nameOf]
  entries hk := by simp [Members.entries, key_nameOf, h.value (hk _ List.mem_cons_self)]
  ordered hk := by
    rw [Members.KeysIncrease]
    exact h.ordered (hk _ List.mem_cons_self)
  wellFormed := by
    have htext : (Members.last (nameOf o level key) before t after).text =
        (nameOf o level key).text ++ (before.text ++ t.text ++ after.text) := by
      simp only [Members.text, List.append_assoc]
    rw [htext, wellFormed_nameOf_append, wellFormed_between, h.wellFormed,
      List.forall_mem_singleton]

theorem showsMembers_more (level : Nat) (key : Bytes) (before : Blanks) {t : Tree} {v : Value}
    (h : Shows o t v) {ms : Members} {members : List (Bytes × Value)}
    (hs : ShowsMembers o ms members) :
    ShowsMembers o (.more (nameOf o level key) before t Blanks.none ms) ((key, v) :: members) where
  depth := by rw [Members.depth, depthMembers, h.depth, hs.depth]
  readable d hdialect hbig k hk := by
    rw [Members.tokens, List.mem_cons, List.mem_append] at hk
    rcases hk with rfl | hk | hk
    · exact readable_nameOf level key d
    · exact h.readable d hdialect hbig k hk
    · exact hs.readable d hdialect hbig k hk
  keys := by rw [Members.keys, List.map_cons, hs.keys, key_nameOf]
  entries hk := by
    simp only [Members.entries, List.map_cons, key_nameOf, h.value (hk _ List.mem_cons_self),
      hs.entries fun m hm => hk m (List.mem_cons_of_mem _ hm)]
  ordered hk := by
    rw [Members.KeysIncrease]
    exact ⟨h.ordered (hk _ List.mem_cons_self),
      hs.ordered fun m hm => hk m (List.mem_cons_of_mem _ hm)⟩
  wellFormed := by
    have htext : (Members.more (nameOf o level key) before t Blanks.none ms).text =
        (nameOf o level key).text ++
          (before.text ++ t.text ++ Blanks.none.text ++ Byte.comma :: ms.text) := by
      simp only [Members.text, List.append_assoc]
    rw [htext, wellFormed_nameOf_append, Utf8.wellFormed_append_cons_iff (by decide),
      wellFormed_between, h.wellFormed, hs.wellFormed, List.forall_mem_cons, and_assoc]

theorem shows_empty (c : Container) {v : Value} (hd : v.depth = 1) (ht : v.TextsWellFormed)
    (hv : ∀ scalar, ((Tree.empty c Blanks.none).value scalar).copy = v.settled o) :
    Shows o (.empty c Blanks.none) v where
  depth := by rw [Tree.depth, hd]
  readable d _ _ k hk := by
    rw [Tree.tokens] at hk
    cases hk
  value _ := hv _
  ordered _ := by
    rw [Tree.KeysIncrease]
    trivial
  wellFormed := by
    have hopening : openingByte c < 0x80 := by cases c <;> decide
    have hclose : c.close < 0x80 := by cases c <;> decide
    rw [Tree.text, wellFormed_bracketed hopening hclose]
    exact iff_of_true (wellFormed_blanks _) ht

theorem shows_emptyArray : Shows o (.empty .array Blanks.none) (.array []) :=
  shows_empty .array rfl ((textsWellFormed_array []).2 (List.forall_mem_nil _)) fun scalar => by
    simp [Tree.value]

theorem shows_emptyObject (index : Option KeyIndex) :
    Shows o (.empty .object Blanks.none) (.object ⟨[], index⟩) :=
  shows_empty .object rfl ((textsWellFormed_object [] index).2 (List.forall_mem_nil _))
    fun scalar => by simp [Tree.value, Object.empty]

theorem shows_array {is : Items} {items : List Value} (h : ShowsItems o is items) :
    Shows o (.array is) (.array items) where
  depth := by rw [Tree.depth, Value.depth, h.depth]
  readable d hdialect hbig := by
    unfold Tree.tokens
    exact h.readable d hdialect hbig
  value hk := by
    rw [Tree.value, copy_array, settled_array, h.values ((all_array items).1 hk).2]
  ordered hk := by
    rw [Tree.KeysIncrease]
    exact h.ordered ((all_array items).1 hk).2
  wellFormed := by
    rw [Tree.text, wellFormed_bracketed (by decide) (by decide), h.wellFormed, textsWellFormed_array]

theorem shows_object {ms : Members} {entries : List (Bytes × Value)} {index : Option KeyIndex}
    (h : ShowsMembers o ms entries) : Shows o (.object ms) (.object ⟨entries, index⟩) where
  depth := by rw [Tree.depth, Value.depth, h.depth]
  readable d hdialect hbig := by
    rw [Tree.tokens]
    exact h.readable d hdialect hbig
  value hk := by
    obtain ⟨hnodup, hvalues⟩ := (all_object entries index).1 hk
    have hkeys : ((ms.entries (Token.value none)).map Prod.fst).Nodup := by
      rw [ms.keys_entries, h.keys]
      exact hnodup
    rw [Tree.value, copy_object, settled_object, Object.dropRepeated_eq_self hkeys,
      h.entries hvalues]
  ordered hk := by
    obtain ⟨hkeys, hvalues⟩ := (all_object entries index).1 hk
    rw [Tree.KeysIncrease, h.keys]
    exact ⟨hkeys, h.ordered hvalues⟩
  wellFormed := by
    rw [Tree.text, wellFormed_bracketed (by decide) (by decide), h.wellFormed,
      textsWellFormed_object]

end JsonCodec.Value
