import Mathlib
import JsonCodec.Proofs.Decode.Acceptance
import JsonCodec.Proofs.Decode.Growth.Token
import JsonCodec.Proofs.Grammar.Characters

set_option autoImplicit false

namespace JsonCodec
open Grammar Runs

namespace StringLiteral

theorem content_plain {b : UInt8} (h : isPlain b = true) (text : Bytes) :
    content (b :: text) = (([b] ++ ·) <$> content) text := by
  rw [map_run, content_eq_pieces, content_eq_pieces, pieces_plain h, List.length_cons,
    @pieces_fuel (text.length + 1 + 1) (text.length + 1) text (by omega) (by omega)]
  cases pieces (text.length + 1) text <;> rfl

theorem content_run {run : Bytes} (h : ∀ b ∈ run, isPlain b = true) (text : Bytes) :
    content (run ++ text) = ((run ++ ·) <$> content) text := by
  induction run with
  | nil =>
    rw [map_run, List.nil_append]
    cases content text <;> rfl
  | cons b run ih =>
    obtain ⟨hb, hrun⟩ := List.forall_mem_cons.1 h
    rw [List.cons_append, content_plain hb, map_run, ih hrun, map_run, map_run]
    cases content text <;> rfl

theorem content_backslash (text : Bytes) :
    content (Byte.backslash :: text) = match escape text with
      | .ok spelled rest => ((spelled ++ ·) <$> content) rest
      | .error fault rest => .error fault rest := by
  rw [content_eq_pieces, pieces_backslash]
  cases h : escape text with
  | error fault rest => rfl
  | ok spelled rest =>
    have hle := length_of_escape h
    simp only [List.length_cons]
    rw [map_run, content_eq_pieces,
      @pieces_fuel (text.length + 1) (rest.length + 1) rest (by omega) (by omega)]
    cases pieces (rest.length + 1) rest <;> rfl

theorem content_quote (rest : Bytes) : content (Byte.quote :: rest) = .ok [] rest := rfl

theorem escape_letter {c : Char} {letter : UInt8} (h : (c.toNat, letter) ∈ shortEscapes)
    (tail : Bytes) : escape (letter :: tail) = .ok (String.utf8EncodeChar c) tail := by
  have hall : ∀ e ∈ shortEscapes, e.1 < 0x80 := by decide
  have hc : c.toNat < 0x80 := hall _ h
  have hto : c.toNat.toUInt8.toNat = c.toNat := by
    simp
    omega
  rw [escape_short (escaped?_eq_some_iff.2 (hto.symm ▸ h)), ← Utf8.encode_toNat, Utf8.encode,
    if_pos hc]

theorem escape_number {c : Char} {digits : Bytes} (h : SpellsHex c.toNat digits) (tail : Bytes) :
    escape (0x75 :: (digits ++ tail)) = .ok (String.utf8EncodeChar c) tail := by
  obtain ⟨g, rfl, hg⟩ := spellsHex_iff.1 h
  have hscalar := Utf8.isScalar_toNat c
  rw [← hg] at hscalar
  obtain ⟨hhigh, hlow⟩ := surrogates_of_isScalar hscalar
  rw [escape_unit, codePoint_lone g hhigh hlow, hg, ← Utf8.encode_toNat]

theorem escape_pair {c : Char} {high low : Bytes} (h : 0x10000 ≤ c.toNat)
    (hhigh : SpellsHex (0xD800 + (c.toNat - 0x10000) / 0x400) high)
    (hlow : SpellsHex (0xDC00 + (c.toNat - 0x10000) % 0x400) low) (tail : Bytes) :
    escape (0x75 :: (high ++ (unitEscape low ++ tail))) = .ok (String.utf8EncodeChar c) tail := by
  obtain ⟨g, rfl, hg⟩ := spellsHex_iff.1 hhigh
  obtain ⟨l, rfl, hl⟩ := spellsHex_iff.1 hlow
  obtain ⟨hmax, -⟩ := Utf8.isScalar_toNat c
  obtain ⟨hhigh, hlow, hjoin⟩ := joinSurrogates_of_parts h hmax
  rw [← hg] at hhigh hjoin
  rw [← hl] at hlow hjoin
  have hrun : codePoint (g.text ++ (unitEscape l.text ++ tail)) =
    .ok (joinSurrogates g.value l.value) tail := codePoint_pair g l hhigh hlow tail
  rw [escape_unit, hrun, hjoin, ← Utf8.encode_toNat]

/-- Reading goes over a character, whichever way it is spelled. -/
theorem content_spells {c : Char} {text : Bytes} (h : Spells c text) (tail : Bytes) :
    content (text ++ tail) = ((String.utf8EncodeChar c ++ ·) <$> content) tail := by
  cases h with
  | raw hcontrol hquote hbackslash =>
    exact content_run ((isPlain_utf8EncodeChar_iff c).2 ⟨hcontrol, hquote, hbackslash⟩) tail
  | short h =>
    rw [List.cons_append, List.singleton_append, content_backslash, escape_letter h]
  | unit h =>
    rw [unitEscape, List.cons_append, List.cons_append, content_backslash, escape_number h]
  | pair h hhigh hlow =>
    rw [unitEscape, List.cons_append, List.cons_append, List.append_assoc, content_backslash,
      escape_pair h hhigh hlow]

/-- Reading goes over characters one by one. -/
theorem content_spelling {cs : List Char} {text : Bytes} (h : Spelling cs text) (tail : Bytes) :
    content (text ++ tail) = ((Utf8.ofChars cs ++ ·) <$> content) tail := by
  induction h with
  | nil =>
    rw [map_run, List.nil_append]
    cases content tail <;> rfl
  | @cons c cs text rest h _ ih =>
    rw [List.append_assoc, content_spells h, map_run, ih, map_run, map_run, Utf8.ofChars_cons]
    cases content tail with
    | ok bytes rest => simp only [List.append_assoc]
    | error fault rest => rfl

theorem content_literal {cs : List Char} {text : Bytes} (h : Spelling cs text) (rest : Bytes) :
    content (text ++ Byte.quote :: rest) = .ok (Utf8.ofChars cs) rest := by
  rw [content_spelling h, map_run, content_quote]
  simp only [List.append_nil]

theorem spelling_unique {cs ds : List Char} {text : Bytes} (h : Spelling cs text)
    (h' : Spelling ds text) : cs = ds := by
  have hrun := (content_literal h []).symm.trans (content_literal h' [])
  exact Utf8.ofChars_injective (EStateM.Result.ok.inj hrun).1

theorem exists_pieces {cs : List Char} {text : Bytes} (h : Spelling cs text) :
    ∃ ps, Piece.Paired false ps ∧ Piece.join ps = text ∧
      Piece.spelled none ps = Utf8.ofChars cs := by
  obtain ⟨ps, hp, htext, hspelled⟩ := content_eq_ok (content_literal h [])
  exact ⟨ps, hp, (List.append_cancel_right htext).symm, hspelled.symm⟩

/-- What is read of a well-formed text is a literal of characters, up to its quote. -/
theorem content_eq_ok_iff {text bytes rest : Bytes} (hw : Utf8.WellFormed text) :
    content text = .ok bytes rest ↔
      ∃ cs literal, Spelling cs literal ∧ text = literal ++ Byte.quote :: rest ∧
        bytes = Utf8.ofChars cs := by
  constructor
  · intro h
    obtain ⟨ps, hp, rfl, rfl⟩ := content_eq_ok h
    obtain ⟨hjoin, -⟩ := (Utf8.wellFormed_append_cons_iff (by decide)).1 hw
    obtain ⟨cs, hcs, hspelled⟩ := Piece.exists_spelling hp hjoin
    exact ⟨cs, Piece.join ps, hcs, rfl, hspelled.symm⟩
  · rintro ⟨cs, literal, h, rfl, rfl⟩
    exact content_literal h rest

theorem content_control {b : UInt8} (h : b < 0x20) (rest : Bytes) :
    content (b :: rest) = .error .controlByte (b :: rest) := by
  have hb : ∀ b : UInt8, b < 0x20 →
      isPlain b = false ∧ b ≠ Byte.quote ∧ b ≠ Byte.backslash := by
    decide +kernel
  obtain ⟨hplain, hquote, hbackslash⟩ := hb b h
  rw [content_eq_pieces, pieces_succ, List.dropWhile_cons_of_neg (by simp [hplain])]
  simp only [if_neg hquote, if_neg hbackslash]

theorem hexValue?_eq_none {x : UInt8} (h : ∀ n, ¬ IsHexDigit n x) : Byte.hexValue? x = none := by
  refine Option.eq_none_iff_forall_not_mem.2 fun n hn => h n ?_
  exact hexValue?_eq_some_iff.1 hn

theorem hexGroup_bad {fault : Fault} {text : Bytes} (h : BadHex fault text) :
    hexGroup text = .error fault text := by
  cases h with
  | short h =>
    rcases text with _ | ⟨a, _ | ⟨b, _ | ⟨c, _ | ⟨d, rest⟩⟩⟩⟩
    · rfl
    · rfl
    · rfl
    · rfl
    · simp only [List.length_cons] at h
      omega
  | digit h =>
    obtain ⟨x, hx, hnone⟩ := h
    have hnone := hexValue?_eq_none hnone
    rw [hexGroup_cons]
    simp only [List.mem_cons, List.not_mem_nil, or_false] at hx
    split
    · rename_i ha hb hc hd
      rcases hx with rfl | rfl | rfl | rfl <;> simp_all
    · rfl

theorem content_unitEscape {fault : Fault} {text rest : Bytes}
    (h : codePoint text = .error fault rest) : content (unitEscape text) = .error fault rest := by
  rw [unitEscape, content_backslash, escape_unit, h]

/-- Behind a high surrogate what is read is up to the low one. -/
theorem codePoint_high {high : Nat} {digits text rest : Bytes} {fault : Fault}
    (h : SpellsHex high digits) (hhigh : 0xD800 ≤ high ∧ high ≤ 0xDBFF)
    (hrest : lowSurrogate text = .error fault rest) :
    codePoint (digits ++ text) = .error fault rest := by
  obtain ⟨g, rfl, rfl⟩ := spellsHex_iff.1 h
  rw [← isHighSurrogate_iff] at hhigh
  simp only [codePoint, bind_run, hexGroup_run, hhigh, ↓reduceIte, hrest]

theorem lowSurrogate_unitEscape (text : Bytes) :
    lowSurrogate (unitEscape text) = (hexGroup >>= fun low =>
      if isLowSurrogate low then pure low else throw .invalidLowSurrogate) text := rfl

theorem content_malformed {fault : Fault} {text : Bytes} (h : Malformed fault text) :
    ∃ rest, content text = .error fault rest := by
  cases h with
  | control h => exact ⟨_, content_control h _⟩
  | @letter b rest hu h =>
    have hnone : escaped? b = none := by
      refine Option.eq_none_iff_forall_not_mem.2 fun x hx => h x.toNat ?_
      exact escaped?_eq_some_iff.1 hx
    exact ⟨b :: rest, by rw [content_backslash, escape_unknown hnone hu]⟩
  | @unit _ text h =>
    refine ⟨text, content_unitEscape ?_⟩
    rw [codePoint, bind_run, hexGroup_bad h]
  | @low low digits rest h hlow =>
    obtain ⟨g, rfl, rfl⟩ := spellsHex_iff.1 h
    have hhigh : isHighSurrogate g.value = false := by
      rw [← Bool.not_eq_true, isHighSurrogate_iff]
      omega
    rw [← isLowSurrogate_iff] at hlow
    refine ⟨rest, content_unitEscape ?_⟩
    simp only [codePoint, bind_run, hexGroup_run, hhigh, hlow, Bool.false_eq_true, ↓reduceIte,
      throw_run]
  | @lone high digits rest h hhigh hrest =>
    refine ⟨rest, content_unitEscape (codePoint_high h hhigh (lowSurrogate_missing ?_))⟩
    rintro ⟨tail, rfl⟩
    exact hrest tail rfl
  | @unpaired high n digits digits' rest h hhigh h' hn =>
    obtain ⟨g, rfl, rfl⟩ := spellsHex_iff.1 h'
    have hlow : isLowSurrogate g.value = false := by
      rw [← Bool.not_eq_true, isLowSurrogate_iff]
      omega
    refine ⟨rest, content_unitEscape (codePoint_high h hhigh ?_)⟩
    simp only [lowSurrogate_unitEscape, bind_run, hexGroup_run, hlow, Bool.false_eq_true,
      ↓reduceIte, throw_run]
  | @second _ high digits text h hhigh h' =>
    refine ⟨text, content_unitEscape (codePoint_high h hhigh ?_)⟩
    rw [lowSurrogate_unitEscape, bind_run, hexGroup_bad h']

theorem content_rejected {cs : List Char} {text tail : Bytes} {fault : Fault}
    (h : Spelling cs text) (h' : Malformed fault tail) :
    ∃ rest, content (text ++ tail) = .error fault rest := by
  obtain ⟨rest, hrun⟩ := content_malformed h'
  exact ⟨rest, by rw [content_spelling h, map_run, hrun]⟩

end StringLiteral

namespace Reader

theorem value_quote (o : DecodeOptions) (extent : Extent) (levels : Nat) (text : Bytes)
    (cache : KeyCache) : value o extent levels ⟨Byte.quote :: text, cache⟩ =
      match StringLiteral.content text with
      | .ok bytes rest => .ok { value := .string bytes } ⟨rest, cache⟩
      | .error fault rest => .error fault ⟨rest, cache⟩ := by
  rw [value_cons o extent levels (by decide), dispatch, if_pos rfl]
  simp only [bind_run, skip_run, List.drop_one, List.tail_cons, scan_run]
  cases StringLiteral.content text <;> rfl

theorem member_quote_error (o : DecodeOptions) (value : Reader Parsed) {text rest : Bytes}
    {fault : Fault} (h : StringLiteral.content text = .error fault rest) (cache : KeyCache) :
    member o value ⟨Byte.quote :: text, cache⟩ = .error fault ⟨rest, cache⟩ := by
  have hpeek : peek ⟨Byte.quote :: text, cache⟩ = .ok Byte.quote ⟨Byte.quote :: text, cache⟩ :=
    peek_blanks Blanks.none (by decide) text cache
  simp only [member, bind_run, hpeek, ne_eq, not_true_eq_false, ↓reduceIte, skip_run,
    List.drop_one, List.tail_cons, scan_run, h]

theorem value_literal (o : DecodeOptions) (extent : Extent) (levels : Nat) {cs : List Char}
    {text : Bytes} (h : Spelling cs text) (rest : Bytes) (cache : KeyCache) :
    value o extent levels ⟨Byte.quote :: (text ++ Byte.quote :: rest), cache⟩ =
      .ok { value := .string (Utf8.ofChars cs) } ⟨rest, cache⟩ := by
  rw [value_quote, StringLiteral.content_literal h]

theorem member_literal (o : DecodeOptions) (value : Reader Parsed) {cs : List Char} {text : Bytes}
    (h : Spelling cs text) (between : Blanks) (rest : Bytes) (cache : KeyCache) :
    ∃ key cache', key.bytes = Utf8.ofChars cs ∧
      member o value
          ⟨Byte.quote :: (text ++ Byte.quote :: (between.text ++ Byte.colon :: rest)), cache⟩ =
        match value ⟨rest, cache'⟩ with
        | .ok parsed cursor => .ok (key, parsed.value) cursor
        | .error fault cursor => .error fault cursor := by
  obtain ⟨ps, hp, rfl, hspelled⟩ := StringLiteral.exists_pieces h
  obtain ⟨key, cache', hkey, hrun⟩ :=
    member_run o value ⟨Blanks.none, ps, between⟩ hp rest cache
  have htext : (Name.mk Blanks.none ps between).text ++ rest = Byte.quote ::
      (Piece.join ps ++ Byte.quote :: (between.text ++ Byte.colon :: rest)) := by
    simp [Name.text, Token.text, Blanks.none]
  rw [htext] at hrun
  exact ⟨key, cache', hkey.trans hspelled, hrun⟩

end Reader

namespace Decode

theorem wellFormed_literal {cs : List Char} {text : Bytes} (h : Spelling cs text) {rest : Bytes}
    (hr : Utf8.WellFormed rest) : Utf8.WellFormed (Byte.quote :: (text ++ Byte.quote :: rest)) :=
  (h.wellFormed.append (hr.cons_ascii (by decide))).cons_ascii (by decide)

theorem whole_literal (o : DecodeOptions) {cs : List Char} {text : Bytes} (h : Spelling cs text)
    (cache : KeyCache) :
    ∃ p keys, whole o (.bytes (Byte.quote :: (text ++ [Byte.quote]))) cache = (.ok p, keys) ∧
      p.value = .string (Utf8.ofChars cs) := by
  obtain ⟨ps, hp, rfl, hspelled⟩ := StringLiteral.exists_pieces h
  have hc : o.Checks (Byte.quote :: (Piece.join ps ++ [Byte.quote])) := fun _ =>
    wellFormed_literal h Utf8.wellFormed_nil
  obtain ⟨p, keys, hrun, hv⟩ := @whole_tree o _ (.token (.string ps)) hc Blanks.none Blanks.none
    (by simp [Blanks.none, Tree.text, Token.text]) (by simp [Tree.depth])
    (by simpa [Tree.tokens, Token.Readable] using hp) cache
  exact ⟨p, keys, hrun, by rw [hv, Tree.value, Token.value, hspelled]⟩

theorem whole_member (o : DecodeOptions) {cs ds : List Char} {key text : Bytes}
    (hkey : Spelling cs key) (h : Spelling ds text) (cache : KeyCache) :
    ∃ p keys, whole o (.bytes (Byte.openBrace :: Byte.quote :: (key ++ Byte.quote :: Byte.colon ::
        Byte.quote :: (text ++ [Byte.quote, Byte.closeBrace])))) cache = (.ok p, keys) ∧
      p.value = .object (.ofList [(Utf8.ofChars cs, .string (Utf8.ofChars ds))]) := by
  obtain ⟨ps, hp, rfl, hspelled⟩ := StringLiteral.exists_pieces hkey
  obtain ⟨qs, hq, rfl, hspelled'⟩ := StringLiteral.exists_pieces h
  have hc : o.Checks (Byte.openBrace :: Byte.quote :: (Piece.join ps ++ Byte.quote :: Byte.colon ::
      Byte.quote :: (Piece.join qs ++ [Byte.quote, Byte.closeBrace]))) := by
    intro _
    have hclose : Utf8.WellFormed [Byte.closeBrace] :=
      Utf8.wellFormed_nil.cons_ascii (by decide)
    have hcolon := (wellFormed_literal h hclose).cons_ascii (show Byte.colon < 0x80 by decide)
    exact (wellFormed_literal hkey hcolon).cons_ascii (by decide)
  obtain ⟨p, keys, hrun, hv⟩ := @whole_tree o _ (.object (.last ⟨Blanks.none, ps, Blanks.none⟩
    Blanks.none (.token (.string qs)) Blanks.none)) hc Blanks.none Blanks.none
    (by simp [Blanks.none, Tree.text, Members.text, Name.text, Token.text])
    (by simpa [Tree.depth, Members.depth] using o.depthLimit_pos)
    (by simpa [Tree.tokens, Members.tokens, Token.Readable] using ⟨hp, hq⟩) cache
  refine ⟨p, keys, hrun, ?_⟩
  rw [hv, Tree.value, Members.entries, Name.key, hspelled, Tree.value, Token.value, hspelled']
  rfl

/-- Every literal of a well-formed text that is decoded spells one sequence of characters, which is
what it is decoded to. -/
theorem whole_literals {o : DecodeOptions} {text : Bytes} {cache keys : KeyCache} {p : Parsed}
    (hw : Utf8.WellFormed text) (h : whole o (.bytes text) cache = (.ok p, keys)) :
    ∃ (before : Blanks) (t : Tree) (after : Blanks),
      text = before.text ++ t.text ++ after.text ∧ p.value = t.value (Token.value o.bigInteger) ∧
      ∀ pieces, .string pieces ∈ t.tokens → ∃ cs, Spelling cs (Piece.join pieces) ∧
        Piece.spelled none pieces = Utf8.ofChars cs ∧
        ∀ ds, Spelling ds (Piece.join pieces) → ds = cs := by
  obtain ⟨-, before, t, after, ht, -, hr, hv⟩ := whole_eq_ok h
  refine ⟨before, t, after, ht, hv, fun pieces hp => ?_⟩
  obtain ⟨a, b, htext⟩ := t.exists_around hp
  have htoken : Utf8.WellFormed (Token.string pieces).text := by
    refine @Token.wellFormed _ (before.text ++ a) (b ++ after.text) ?_
    rw [ht, htext] at hw
    simpa only [List.append_assoc] using hw
  obtain ⟨cs, hcs, hspelled⟩ := Piece.exists_spelling (hr _ hp) (Token.wellFormed_content htoken)
  exact ⟨cs, hcs, hspelled.symm, fun ds hds => StringLiteral.spelling_unique hds hcs⟩

/-- String literals mean the characters that they spell. `StringLiteral.content` reads a literal
behind its opening quote, for strings and for keys. -/
structure Literals : Prop where
  content : ∀ (cs : List Char) (literal rest : Bytes), Spelling cs literal →
    StringLiteral.content (literal ++ Byte.quote :: rest) = .ok (Utf8.ofChars cs) rest
  view : ∀ text, StringLiteral.content text = StringLiteral.pieces (text.length + 1) text
  value : ∀ (o : DecodeOptions) (extent : Extent) (levels : Nat) (cs : List Char)
    (literal rest : Bytes) (cache : KeyCache), Spelling cs literal →
    Reader.value o extent levels ⟨Byte.quote :: (literal ++ Byte.quote :: rest), cache⟩ =
      .ok { value := .string (Utf8.ofChars cs) } ⟨rest, cache⟩
  key : ∀ (o : DecodeOptions) (value : Reader Parsed) (cs : List Char) (literal : Bytes)
    (between : Blanks) (rest : Bytes) (cache : KeyCache), Spelling cs literal →
    ∃ key cache', key.bytes = Utf8.ofChars cs ∧
      Reader.member o value
          ⟨Byte.quote :: (literal ++ Byte.quote :: (between.text ++ Byte.colon :: rest)), cache⟩ =
        match value ⟨rest, cache'⟩ with
        | .ok parsed cursor => .ok (key, parsed.value) cursor
        | .error fault cursor => .error fault cursor
  document : ∀ (o : DecodeOptions) (cs : List Char) (literal : Bytes) (cache : KeyCache),
    Spelling cs literal → ∃ p keys,
      whole o (.bytes (Byte.quote :: (literal ++ [Byte.quote]))) cache = (.ok p, keys) ∧
        p.value = .string (Utf8.ofChars cs)
  member : ∀ (o : DecodeOptions) (cs ds : List Char) (key literal : Bytes) (cache : KeyCache),
    Spelling cs key → Spelling ds literal → ∃ p keys,
      whole o (.bytes (Byte.openBrace :: Byte.quote :: (key ++ Byte.quote :: Byte.colon ::
          Byte.quote :: (literal ++ [Byte.quote, Byte.closeBrace])))) cache = (.ok p, keys) ∧
        p.value = .object (.ofList [(Utf8.ofChars cs, .string (Utf8.ofChars ds))])
  accepted : ∀ text bytes rest, Utf8.WellFormed text →
    (StringLiteral.content text = .ok bytes rest ↔ ∃ cs literal, Spelling cs literal ∧
      text = literal ++ Byte.quote :: rest ∧ bytes = Utf8.ofChars cs)
  unique : ∀ (cs ds : List Char) (literal : Bytes), Spelling cs literal → Spelling ds literal →
    cs = ds
  documents : ∀ (o : DecodeOptions) (text : Bytes) (cache keys : KeyCache) (p : Parsed),
    Utf8.WellFormed text → whole o (.bytes text) cache = (.ok p, keys) →
    ∃ (before : Blanks) (t : Tree) (after : Blanks),
      text = before.text ++ t.text ++ after.text ∧ p.value = t.value (Token.value o.bigInteger) ∧
      ∀ pieces, .string pieces ∈ t.tokens → ∃ cs, Spelling cs (Piece.join pieces) ∧
        Piece.spelled none pieces = Utf8.ofChars cs ∧
        ∀ ds, Spelling ds (Piece.join pieces) → ds = cs
  rejected : ∀ (cs : List Char) (literal tail : Bytes) (fault : Fault), Spelling cs literal →
    Malformed fault tail → ∃ rest, ∀ (o : DecodeOptions) (cache : KeyCache),
      (∀ extent levels, Reader.value o extent levels ⟨Byte.quote :: (literal ++ tail), cache⟩ =
        .error fault ⟨rest, cache⟩) ∧
      ∀ value, Reader.member o value ⟨Byte.quote :: (literal ++ tail), cache⟩ =
        .error fault ⟨rest, cache⟩

theorem literals : Literals where
  content _ _ rest h := StringLiteral.content_literal h rest
  view := StringLiteral.content_eq_pieces
  value o extent levels _ _ rest cache h := Reader.value_literal o extent levels h rest cache
  key o value _ _ between rest cache h := Reader.member_literal o value h between rest cache
  document o _ _ cache h := whole_literal o h cache
  member o _ _ _ _ cache hkey h := whole_member o hkey h cache
  accepted _ _ _ hw := StringLiteral.content_eq_ok_iff hw
  unique _ _ _ := StringLiteral.spelling_unique
  documents _ _ _ _ _ := whole_literals
  rejected _ _ _ _ h h' := by
    obtain ⟨rest, hrun⟩ := StringLiteral.content_rejected h h'
    refine ⟨rest, fun o cache => ⟨fun extent levels => ?_, fun value => ?_⟩⟩
    · rw [Reader.value_quote, hrun]
    · exact Reader.member_quote_error o value hrun cache

end Decode
end JsonCodec
