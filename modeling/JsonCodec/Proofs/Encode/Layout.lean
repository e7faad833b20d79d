import Mathlib
import JsonCodec.Proofs.Encode.NonFinite
import JsonCodec.Proofs.Encode.Tree
import JsonCodec.Proofs.Grammar.Layout

set_option autoImplicit false

namespace JsonCodec
open Grammar

namespace EncodeOptions

def indentFlag : UInt32 := 1

def layoutFlags : UInt32 := 5

theorem or_and_distrib (flags flags' mask : UInt32) :
    (flags ||| flags') &&& mask = (flags &&& mask) ||| (flags' &&& mask) := by
  rw [← UInt32.toBitVec_inj]
  ext i hi
  simp [Bool.and_or_distrib_right]

theorem indent_ofFlags (d : Dialect) (flags : UInt32) :
    (ofFlags d (flags ||| indentFlag)).indent = true := by
  simp [ofFlags, indentFlag, or_and_distrib]

theorem and_not_layoutFlags (flags flag : UInt32) (h : ~~~layoutFlags &&& flag = 0) :
    flags &&& ~~~layoutFlags &&& flag = 0 := by
  rw [UInt32.and_assoc, h, UInt32.and_zero]

theorem bare_ofFlags (d : Dialect) (flags : UInt32) :
    (ofFlags d (flags &&& ~~~layoutFlags)).indent = false ∧
      (ofFlags d (flags &&& ~~~layoutFlags)).newline = false := by
  have hindent := and_not_layoutFlags flags 1 (by decide)
  have hnewline := and_not_layoutFlags flags 4 (by decide)
  simp [ofFlags, hindent, hnewline]

structure SameContent (o o' : EncodeOptions) : Prop where
  dialect : o.dialect = o'.dialect
  sortKeys : o.sortKeys = o'.sortKeys
  nonFiniteAsNull : o.nonFiniteAsNull = o'.nonFiniteAsNull

theorem sameContent_ofFlags (d : Dialect) {flags flags' : UInt32}
    (h : flags &&& ~~~layoutFlags = flags' &&& ~~~layoutFlags) :
    SameContent (ofFlags d flags) (ofFlags d flags') where
  dialect := rfl
  sortKeys := by simp only [ofFlags, and_flag h 2 (by decide)]
  nonFiniteAsNull := by
    simp only [nonFiniteAsNull, ofFlags, and_flag h 8 (by decide), and_flag h 16 (by decide)]

end EncodeOptions

namespace Value

open EncodeOptions (SameContent)

variable {e o o' : EncodeOptions}

theorem writeScalar_congr (h : SameContent o o') (out : Output) (v : Value) :
    writeScalar o out v = writeScalar o' out v := by
  cases v with
  | float x => simp only [writeScalar, Binary64.encode, h.dialect, h.nonFiniteAsNull]
  | _ => rfl

theorem isOk_encode_congr (h : SameContent o o') (v : Value) :
    (v.encode o).isOk = true ↔ (v.encode o').isOk = true := by
  rw [isOk_encode, isOk_encode, h.dialect, h.nonFiniteAsNull]

theorem bind_eq_ok {ε α β : Type} {x : Except ε α} {f : α → Except ε β} {b : β} :
    (x >>= f) = .ok b ↔ ∃ a, x = .ok a ∧ f a = .ok b := by
  cases x with
  | error e => simp [bind, Except.bind]
  | ok a => simp [bind, Except.bind]

def Adds (step : Output → Except EncodeError Output) (text : Bytes) : Prop :=
  ∀ out, ∃ out', step out = .ok out' ∧ out'.take = out.take ++ text

def ItemsAdd (e : EncodeOptions) (level : Nat) (items : List Value) (text : Bytes) : Prop :=
  ∀ first out, ∃ out', writeItems e level first out items = .ok out' ∧
    out'.take = (writeComma first out).take ++ text

def MembersAdd (e : EncodeOptions) (level : Nat) (members : List (Bytes × Value)) (text : Bytes) :
    Prop :=
  ∀ first out, ∃ out', writeMembers e level first out members = .ok out' ∧
    out'.take = (writeComma first out).take ++ text

variable {level : Nat} {v : Value} {text more : Bytes}

theorem itemsAdd_last (h : Adds (fun out => write e level out v) text) :
    ItemsAdd e level [v] ((lineBlanks e level).text ++ text) := by
  intro first out
  obtain ⟨out', hwrite, htake⟩ := h (startLine e level (writeComma first out))
  refine ⟨out', ?_, ?_⟩
  · rw [writeItems]
    exact bind_eq_ok.2 ⟨out', hwrite, writeItems_nil ..⟩
  · rw [htake, take_startLine, List.append_assoc]

theorem itemsAdd_more (h : Adds (fun out => write e level out v) text) {rest : List Value}
    (hrest : ItemsAdd e level rest more) :
    ItemsAdd e level (v :: rest) ((lineBlanks e level).text ++ text ++ Byte.comma :: more) := by
  intro first out
  obtain ⟨out₁, hwrite, htake⟩ := h (startLine e level (writeComma first out))
  obtain ⟨out', hwrite', htake'⟩ := hrest false out₁
  refine ⟨out', ?_, ?_⟩
  · rw [writeItems]
    exact bind_eq_ok.2 ⟨out₁, hwrite, hwrite'⟩
  · rw [htake']
    simp [writeComma, htake, take_startLine]

theorem membersAdd_last {key : Bytes} (h : Adds (fun out => write e level out v) text) :
    MembersAdd e level [(key, v)]
      ((nameOf e level key).text ++ (colonBlanks e).text ++ text) := by
  intro first out
  obtain ⟨out', hwrite, htake⟩ := h (writeColon e
    ((startLine e level (writeComma first out)).append (StringLiteral.write key)))
  refine ⟨out', ?_, ?_⟩
  · rw [writeMembers]
    exact bind_eq_ok.2 ⟨out', hwrite, writeMembers_nil ..⟩
  · simp [htake, take_writeColon, take_startLine, text_nameOf]

theorem membersAdd_more {key : Bytes} (h : Adds (fun out => write e level out v) text)
    {rest : List (Bytes × Value)} (hrest : MembersAdd e level rest more) :
    MembersAdd e level ((key, v) :: rest)
      ((nameOf e level key).text ++ (colonBlanks e).text ++ text ++ Byte.comma :: more) := by
  intro first out
  obtain ⟨out₁, hwrite, htake⟩ := h (writeColon e
    ((startLine e level (writeComma first out)).append (StringLiteral.write key)))
  obtain ⟨out', hwrite', htake'⟩ := hrest false out₁
  refine ⟨out', ?_, ?_⟩
  · rw [writeMembers]
    exact bind_eq_ok.2 ⟨out₁, hwrite, hwrite'⟩
  · rw [htake']
    simp [writeComma, htake, take_writeColon, take_startLine, text_nameOf]

theorem adds_array {items : List Value} (hne : items ≠ [])
    (h : ItemsAdd e (level + 1) items text) :
    Adds (fun out => write e level out (.array items))
      (Byte.openBracket :: (text ++ (lineBlanks e level).text ++ [Byte.closeBracket])) := by
  intro out
  obtain ⟨out₁, hwrite, htake⟩ := h true (out.push Byte.openBracket)
  refine ⟨_, (write_array hne level out).trans (bind_eq_ok.2 ⟨out₁, hwrite, rfl⟩), ?_⟩
  simp [writeComma, htake, take_startLine]

theorem adds_object {entries : List (Bytes × Value)} {index : Option KeyIndex}
    (hne : entries ≠ []) (h : MembersAdd e (level + 1) (inOrder e entries) text) :
    Adds (fun out => write e level out (.object ⟨entries, index⟩))
      (Byte.openBrace :: (text ++ (lineBlanks e level).text ++ [Byte.closeBrace])) := by
  intro out
  obtain ⟨out₁, hwrite, htake⟩ := h true (out.push Byte.openBrace)
  refine ⟨_, (write_object index hne level out).trans (bind_eq_ok.2 ⟨out₁, hwrite, rfl⟩), ?_⟩
  simp [writeComma, htake, take_startLine]

theorem text_lineBlanks (h : o.indent = true) (level : Nat) :
    (lineBlanks o level).text = lineBreak level := by
  rw [lineBlanks, if_pos h]
  rfl

theorem text_colonBlanks (h : o.indent = true) : (colonBlanks o).text = [Byte.space] := by
  rw [colonBlanks, if_pos h]

theorem lineBlanks_eq_none (h : o.indent = false) (level : Nat) :
    lineBlanks o level = Blanks.none := by
  rw [lineBlanks, h, if_neg Bool.false_ne_true]

theorem colonBlanks_eq_none (h : o.indent = false) : colonBlanks o = Blanks.none := by
  rw [colonBlanks, h, if_neg Bool.false_ne_true]

/-- A tree stands for a value in the order in which it is written, and is its text under some
options, indented if they ask for lines. Without blanks it is the text of the value under options
that do not. -/
structure LaidOut (o o' : EncodeOptions) (level : Nat) (v : Value) (t : Tree) : Prop where
  indented : o.indent = true → t.Indented level
  shows : Shows o t (v.ordered o)
  text : Adds (fun out => write o level out v) t.text
  bare : ∀ level', Adds (fun out => write o' level' out v) t.bare

structure ItemsLaidOut (o o' : EncodeOptions) (level : Nat) (items : List Value) (is : Items) :
    Prop where
  indented : o.indent = true → is.Indented level
  shows : ShowsItems o is (items.map (ordered o))
  text : ∃ text, is.text = text ++ (lineBlanks o level).text ∧ ItemsAdd o (level + 1) items text
  bare : ∀ level', ItemsAdd o' level' items is.bare

structure MembersLaidOut (o o' : EncodeOptions) (level : Nat) (members : List (Bytes × Value))
    (ms : Members) : Prop where
  indented : o.indent = true → ms.Indented level
  shows : ShowsMembers o ms (members.map fun m => (m.1, m.2.ordered o))
  text : ∃ text, ms.text = text ++ (lineBlanks o level).text ∧
    MembersAdd o (level + 1) members text
  bare : ∀ level', MembersAdd o' level' members ms.bare

section

variable (hbare : o'.indent = false)
include hbare

theorem itemsLaidOut_last {t : Tree} (h : LaidOut o o' (level + 1) v t) :
    ItemsLaidOut o o' level [v] (.last (lineBlanks o (level + 1)) t (lineBlanks o level)) where
  indented hindent := by
    rw [Items.Indented, text_lineBlanks hindent, text_lineBlanks hindent]
    exact ⟨rfl, h.indented hindent, rfl⟩
  shows := showsItems_last _ h.shows _
  text := ⟨_, by rw [Items.text], itemsAdd_last h.text⟩
  bare level' := by
    have hone := itemsAdd_last (h.bare level')
    rwa [lineBlanks_eq_none hbare] at hone

theorem itemsLaidOut_more {t : Tree} (h : LaidOut o o' (level + 1) v t) {rest : List Value}
    {is : Items} (hrest : ItemsLaidOut o o' level rest is) :
    ItemsLaidOut o o' level (v :: rest) (.more (lineBlanks o (level + 1)) t Blanks.none is) where
  indented hindent := by
    rw [Items.Indented, text_lineBlanks hindent]
    exact ⟨rfl, h.indented hindent, rfl, hrest.indented hindent⟩
  shows := showsItems_more _ h.shows hrest.shows
  text := by
    obtain ⟨text, htext, hadd⟩ := hrest.text
    exact ⟨_, by simp [Items.text, htext], itemsAdd_more h.text hadd⟩
  bare level' := by
    have hmore := itemsAdd_more (h.bare level') (hrest.bare level')
    rwa [lineBlanks_eq_none hbare] at hmore

theorem membersLaidOut_last (key : Bytes) {t : Tree} (h : LaidOut o o' (level + 1) v t) :
    MembersLaidOut o o' level [(key, v)]
      (.last (nameOf o (level + 1) key) (colonBlanks o) t (lineBlanks o level)) where
  indented hindent := by
    rw [Members.Indented, text_lineBlanks hindent, text_colonBlanks hindent]
    exact ⟨text_lineBlanks hindent _, rfl, rfl, h.indented hindent, rfl⟩
  shows := showsMembers_last _ key _ h.shows _
  text := ⟨_, by rw [Members.text], membersAdd_last h.text⟩
  bare level' := by
    have hone := @membersAdd_last _ _ _ _ key (h.bare level')
    rw [text_nameOf, lineBlanks_eq_none hbare, colonBlanks_eq_none hbare] at hone
    simpa [Members.bare, nameOf, ← StringLiteral.write_eq] using hone

theorem membersLaidOut_more (key : Bytes) {t : Tree} (h : LaidOut o o' (level + 1) v t)
    {rest : List (Bytes × Value)} {ms : Members} (hrest : MembersLaidOut o o' level rest ms) :
    MembersLaidOut o o' level ((key, v) :: rest)
      (.more (nameOf o (level + 1) key) (colonBlanks o) t Blanks.none ms) where
  indented hindent := by
    rw [Members.Indented, text_colonBlanks hindent]
    exact ⟨text_lineBlanks hindent _, rfl, rfl, h.indented hindent, rfl, hrest.indented hindent⟩
  shows := showsMembers_more _ key _ h.shows hrest.shows
  text := by
    obtain ⟨text, htext, hadd⟩ := hrest.text
    exact ⟨_, by simp [Members.text, htext], membersAdd_more h.text hadd⟩
  bare level' := by
    have hmore := @membersAdd_more _ _ _ _ _ key (h.bare level') _ (hrest.bare level')
    rw [text_nameOf, lineBlanks_eq_none hbare, colonBlanks_eq_none hbare] at hmore
    simpa [Members.bare, nameOf, ← StringLiteral.write_eq] using hmore

theorem laidOut_array {items : List Value} (hne : items ≠ []) {is : Items}
    (h : ItemsLaidOut o o' level items is) : LaidOut o o' level (.array items) (.array is) where
  indented hindent := by
    rw [Tree.Indented]
    exact h.indented hindent
  shows := by
    rw [ordered_array]
    exact shows_array h.shows
  text := by
    obtain ⟨text, htext, hadd⟩ := h.text
    rw [Tree.text, htext]
    exact adds_array hne hadd
  bare level' := by
    have harray := adds_array hne (h.bare (level' + 1))
    rwa [lineBlanks_eq_none hbare, text_none, List.append_nil] at harray

theorem laidOut_object (hsort : o.sortKeys = o'.sortKeys) {entries : List (Bytes × Value)}
    (index : Option KeyIndex) (hne : entries ≠ []) {ms : Members}
    (h : MembersLaidOut o o' level (inOrder o entries) ms) :
    LaidOut o o' level (.object ⟨entries, index⟩) (.object ms) where
  indented hindent := by
    rw [Tree.Indented]
    exact h.indented hindent
  shows := by
    obtain ⟨index', hordered⟩ := @ordered_object o entries index
    rw [hordered]
    exact shows_object h.shows
  text := by
    obtain ⟨text, htext, hadd⟩ := h.text
    rw [Tree.text, htext]
    exact adds_object hne hadd
  bare level' := by
    have hbare' := h.bare (level' + 1)
    rw [inOrder_congr hsort] at hbare'
    have hobject := @adds_object _ _ _ _ index hne hbare'
    rwa [lineBlanks_eq_none hbare, text_none, List.append_nil] at hobject

theorem exists_itemsLaidOut {items : List Value} (hne : items ≠ [])
    (h : ∀ v ∈ items, ∃ t, LaidOut o o' (level + 1) v t) :
    ∃ is, ItemsLaidOut o o' level items is := by
  induction items with
  | nil => exact absurd rfl hne
  | cons item rest ih =>
    obtain ⟨t, ht⟩ := h item List.mem_cons_self
    cases rest with
    | nil => exact ⟨_, itemsLaidOut_last hbare ht⟩
    | cons next rest =>
      obtain ⟨is, his⟩ := ih (by simp) fun v hv => h v (List.mem_cons_of_mem item hv)
      exact ⟨_, itemsLaidOut_more hbare ht his⟩

theorem exists_membersLaidOut {members : List (Bytes × Value)} (hne : members ≠ [])
    (h : ∀ m ∈ members, ∃ t, LaidOut o o' (level + 1) m.2 t) :
    ∃ ms, MembersLaidOut o o' level members ms := by
  induction members with
  | nil => exact absurd rfl hne
  | cons member rest ih =>
    obtain ⟨key, value⟩ := member
    obtain ⟨t, ht⟩ := h (key, value) List.mem_cons_self
    cases rest with
    | nil => exact ⟨_, membersLaidOut_last hbare key ht⟩
    | cons next rest =>
      obtain ⟨ms, hms⟩ := ih (by simp) fun m hm => h m (List.mem_cons_of_mem _ hm)
      exact ⟨_, membersLaidOut_more hbare key ht hms⟩

end

theorem exists_written {v : Value} (hs : v.isScalar = true) (hv : Writable o v) :
    ∃ text, ∀ out, writeScalar o out v = .ok (out.append text) := by
  cases v with
  | array items => cases hs
  | object members => cases hs
  | float x =>
    obtain ⟨text, htext⟩ := isOk_iff.1 ((isOk_encode_float x).2 hv)
    exact ⟨text, fun out => bind_eq_ok.2 ⟨text, htext, rfl⟩⟩
  | _ => exact ⟨_, fun _ => rfl⟩

theorem exists_laidOut_scalar (hc : SameContent o o') {v : Value} (hs : v.isScalar = true)
    (hv : Writable o v) (level : Nat) : ∃ t, LaidOut o o' level v t := by
  obtain ⟨text, hwrite⟩ := exists_written hs hv
  obtain ⟨k, htext, hk⟩ := exists_token hs (hwrite Output.empty)
  obtain rfl : text = k.text := by simpa using htext
  refine ⟨.token k, fun _ => ?_, ?_, fun out => ?_, fun level' out => ?_⟩
  · rw [Tree.Indented]
    trivial
  · rw [ordered_scalar hs]
    exact shows_token hs hk
  · exact ⟨_, (write_scalar hs level out).trans (hwrite out), Output.take_append out k.text⟩
  · have hwrite' := (writeScalar_congr hc out v).symm.trans (hwrite out)
    exact ⟨_, (write_scalar hs level' out).trans hwrite', Output.take_append out k.text⟩

theorem laidOut_empty {c : Container} {v : Value}
    (h : Shows o (.empty c Blanks.none) (v.ordered o))
    (hw : ∀ e level out, write e level out v = .ok (out.append [openingByte c, c.close]))
    (level : Nat) : LaidOut o o' level v (.empty c Blanks.none) where
  indented _ := by
    rw [Tree.Indented]
    rfl
  shows := h
  text out := ⟨_, hw o level out, by simp [Tree.text]⟩
  bare level' out := ⟨_, hw o' level' out, by simp [Tree.bare]⟩

theorem exists_laidOut (hbare : o'.indent = false) (hc : SameContent o o') {v : Value}
    (hv : v.All (Writable o)) (level : Nat) : ∃ t, LaidOut o o' level v t := by
  induction v using nested generalizing level with
  | scalar v hs => exact exists_laidOut_scalar hc hs ((all_scalar hs).1 hv) level
  | array items ih =>
    by_cases hne : items = []
    · subst hne
      refine ⟨.empty .array Blanks.none, laidOut_empty ?_ write_emptyArray level⟩
      rw [ordered_array]
      exact shows_emptyArray
    · have hitems := ((all_array _).1 hv).2
      obtain ⟨is, his⟩ := exists_itemsLaidOut hbare hne
        fun v hmem => ih v hmem (hitems v hmem) (level + 1)
      exact ⟨.array is, laidOut_array hbare hne his⟩
  | object entries index ih =>
    by_cases hne : entries = []
    · subst hne
      refine ⟨.empty .object Blanks.none, laidOut_empty ?_ (write_emptyObject · index) level⟩
      obtain ⟨index', hordered⟩ := @ordered_object o [] index
      rw [hordered, List.perm_nil.1 (inOrder_perm [])]
      exact shows_emptyObject index'
    · have hmembers := ((all_object _ _).1 hv).2
      obtain ⟨ms, hms⟩ := exists_membersLaidOut hbare (inOrder_ne_nil hne) fun m hm =>
        have hmem := (inOrder_perm _).mem_iff.1 hm
        ih m hmem (hmembers m hmem) (level + 1)
      exact ⟨.object ms, laidOut_object hbare hc.sortKeys index hne hms⟩

def WritesTree (o : EncodeOptions) (v : Value) : Prop :=
  ∀ level out out', write o level out v = .ok out' →
    ∃ t : Tree, out'.take = out.take ++ t.text ∧ Shows o t (v.ordered o)

theorem writesTree (v : Value) : WritesTree o v := by
  intro level out out' h
  have hall := (writtenIf_all v level out).1 (isOk_iff.2 ⟨out', h⟩)
  have hc : SameContent o { o with indent := false } := ⟨rfl, rfl, rfl⟩
  obtain ⟨t, ht⟩ := exists_laidOut rfl hc hall level
  obtain ⟨written, hwrite, htake⟩ := ht.text out
  obtain rfl := Except.ok.inj (hwrite.symm.trans h)
  exact ⟨t, htake, ht.shows⟩

def lineEnd (o : EncodeOptions) : Blanks :=
  if o.newline then ⟨[Byte.newline], fun b hb => by rw [List.mem_singleton.1 hb]; rfl⟩
  else Blanks.none

theorem encode_of_write {v : Value} {out : Output}
    (h : write o 0 Output.empty v = .ok out) :
    v.encode o = .ok (out.take ++ (lineEnd o).text) := by
  rw [encode, h, lineEnd]
  cases o.newline with
  | true => exact congrArg Except.ok (Output.take_push out Byte.newline)
  | false => exact congrArg Except.ok (List.append_nil out.take).symm

/-- The text of a value in lines, and its text without them and without a line feed at the end. -/
structure Layouts (o o' : EncodeOptions) (v : Value) (lines bare : Bytes) : Prop where
  encode_lines : v.encode o = .ok lines
  encode_bare : v.encode o' = .ok bare
  withoutBlanks : withoutBlanks lines = bare
  unspaced : Unspaced bare
  indented : ∃ t : Tree, t.Indented 0 ∧ lines = t.text ++ (lineEnd o).text ∧ bare = t.bare ∧
    Shows o t (if o.sortKeys then v.sorted else v)

theorem exists_layouts (hindent : o.indent = true) (hbare : o'.indent = false)
    (hend : o'.newline = false) (hc : SameContent o o') {v : Value}
    (h : (v.encode o).isOk = true) : ∃ lines bare, Layouts o o' v lines bare := by
  obtain ⟨text, htext⟩ := isOk_iff.1 h
  obtain ⟨out, hwrite, -⟩ := bind_eq_ok.1 htext
  have hall := (writtenIf_all v 0 Output.empty).1 (isOk_iff.2 ⟨out, hwrite⟩)
  obtain ⟨t, ht⟩ := exists_laidOut hbare hc hall 0
  obtain ⟨lines, hlines, htake⟩ := ht.text Output.empty
  obtain ⟨bare, hbare, htake'⟩ := ht.bare 0 Output.empty
  rw [Output.take_empty, List.nil_append] at htake htake'
  have hstrip := withoutBlanks_tree Blanks.none t (lineEnd o)
  rw [text_none, List.nil_append] at hstrip
  refine ⟨t.text ++ (lineEnd o).text, t.bare, ?_, ?_, hstrip, ?_, t, ht.indented hindent, rfl, rfl,
    ht.shows⟩
  · rw [← htake]
    exact encode_of_write hlines
  · rw [encode_of_write hbare, htake', lineEnd, hend, if_neg Bool.false_ne_true, text_none,
      List.append_nil]
  · rw [← hstrip]
    exact unspaced_withoutBlanks _

/-- What can be written at all can be written in lines and without blanks, which is the same text
up to blanks outside of literals. -/
theorem layouts {d : Dialect} {flags : UInt32} {v : Value} {text : Bytes}
    (h : v.encode (.ofFlags d flags) = .ok text) :
    ∃ lines bare, Layouts (.ofFlags d (flags ||| EncodeOptions.indentFlag))
      (.ofFlags d (flags &&& ~~~EncodeOptions.layoutFlags)) v lines bare := by
  have hlines : (flags ||| EncodeOptions.indentFlag) &&& ~~~EncodeOptions.layoutFlags =
      flags &&& ~~~EncodeOptions.layoutFlags := by
    rw [EncodeOptions.or_and_distrib]
    exact UInt32.or_zero
  have hbare : flags &&& ~~~EncodeOptions.layoutFlags &&& ~~~EncodeOptions.layoutFlags =
      flags &&& ~~~EncodeOptions.layoutFlags := by
    rw [UInt32.and_assoc, UInt32.and_self]
  have hoptions := EncodeOptions.bare_ofFlags d flags
  refine exists_layouts (EncodeOptions.indent_ofFlags d flags) hoptions.1 hoptions.2
    (EncodeOptions.sameContent_ofFlags d (hlines.trans hbare.symm)) ?_
  rw [← isOk_encode_congr (EncodeOptions.sameContent_ofFlags d hlines.symm)]
  exact isOk_iff.2 ⟨text, h⟩

def spacedValue : Value :=
  .object ⟨[(Bytes.ascii "a b", .array [.array [], .object Object.empty]),
    (Bytes.ascii "\"", .string (Bytes.ascii " \" "))], none⟩

def spacedText : Bytes := Bytes.ascii "\x7b\"a b\":[[],\x7b\x7d],\"\\\"\":\" \\\" \"\x7d"

theorem layouts_spacedValue :
    spacedValue.encode (.ofFlags .strict 0) = .ok spacedText ∧
      ∃ lines bare, Layouts (.ofFlags .strict (0 ||| EncodeOptions.indentFlag))
        (.ofFlags .strict (0 &&& ~~~EncodeOptions.layoutFlags)) spacedValue lines bare :=
  have hencode : spacedValue.encode (.ofFlags .strict 0) = .ok spacedText := by decide +kernel
  ⟨hencode, layouts hencode⟩

end Value
end JsonCodec
