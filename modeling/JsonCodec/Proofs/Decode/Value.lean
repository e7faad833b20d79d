import Mathlib
import JsonCodec.Proofs.KeyCache
import JsonCodec.Proofs.Object
import JsonCodec.Proofs.Decode.Container
import JsonCodec.Proofs.Decode.NumberValue
import JsonCodec.Proofs.Decode.StringLiteral

set_option autoImplicit false

namespace JsonCodec.Reader
open Grammar Runs

def inside (o : DecodeOptions) (extent : Extent) : Nat → Container → Reader Parsed
  | 0, _ => throw .tooDeep
  | levels + 1, .array => array (value o extent levels)
  | levels + 1, .object => object o (value o extent levels)

def dispatch (o : DecodeOptions) (extent : Extent) (inside : Container → Reader Parsed)
    (b : UInt8) : Reader Parsed :=
  if b = Byte.quote then do
    skip
    return { value := .string (← scan StringLiteral.content) }
  else if b = Byte.openBrace then do
    skip
    inside .object
  else if b = Byte.openBracket then do
    skip
    inside .array
  else if b = 0x74 then named (Bytes.ascii "true") (.bool true)
  else if b = 0x66 then named (Bytes.ascii "false") (.bool false)
  else if b = 0x6E then named (Bytes.ascii "null") .null
  else if startsNumber b then do return { value := ← scan (NumberLiteral.value o extent) }
  else if o.dialect.hasNonFinite && b == 0x4E then
    named (Bytes.ascii "NaN") (.float .nan)
  else if o.dialect.hasNonFinite && b == 0x49 then
    named NumberLiteral.infinityWord (.float (.infinity false))
  else throw (.unexpectedByte b)

theorem value_eq (o : DecodeOptions) (extent : Extent) (levels : Nat) :
    value o extent levels = peek >>= dispatch o extent (inside o extent levels) := by
  cases levels with
  | zero => rfl
  | succ levels =>
    have h : value o extent (levels + 1) = opening o extent (inside o extent (levels + 1)) := by
      unfold value
      apply congrArg (opening o extent)
      funext c
      cases c <;> rfl
    rw [h]
    rfl

theorem skipsBlanks_value (o : DecodeOptions) (extent : Extent) (levels : Nat) :
    SkipsBlanks (value o extent levels) := by
  rw [value_eq]
  exact skipsBlanks_peek _

theorem value_cons (o : DecodeOptions) (extent : Extent) (levels : Nat) {b : UInt8}
    (hb : Byte.isSpace b = false) (rest : Bytes) (keys : KeyCache) :
    value o extent levels ⟨b :: rest, keys⟩ =
      dispatch o extent (inside o extent levels) b ⟨b :: rest, keys⟩ := by
  have hp : peek ⟨b :: rest, keys⟩ = .ok b ⟨b :: rest, keys⟩ := peek_blanks Blanks.none hb rest keys
  rw [value_eq, bind_run, hp]

theorem named_run (spelling : Bytes) (v : Value) (rest : Bytes) (keys : KeyCache) :
    named spelling v ⟨spelling ++ rest, keys⟩ = .ok { value := v } ⟨rest, keys⟩ := by
  have hword : Scanner.word spelling (spelling ++ rest) = .ok ⟨⟩ rest := by
    rw [word_run, if_pos (by simp), List.drop_left]
  simp only [named, bind_run, scan_run, hword, pure_run]

theorem named_eq_ok {spelling : Bytes} {v : Value} {text : Bytes} {keys : KeyCache}
    {parsed : Parsed} {cursor : Cursor}
    (h : named spelling v ⟨text, keys⟩ = .ok parsed cursor) :
    text = spelling ++ cursor.rest := by
  obtain ⟨u, s, hscan, h⟩ := bind_eq_ok.1 h
  obtain ⟨rest, hw, rfl⟩ := scan_eq_ok.1 hscan
  obtain ⟨-, rfl⟩ := EStateM.Result.ok.inj h
  rw [word_run] at hw
  split_ifs at hw with hp
  obtain ⟨tail, rfl⟩ := List.isPrefixOf_iff_prefix.1 hp
  obtain ⟨-, rfl⟩ := EStateM.Result.ok.inj hw
  rw [List.drop_left]

theorem startsNumber_spec {b : UInt8} (h : startsNumber b = true) :
    b ≠ Byte.quote ∧ b ≠ Byte.openBrace ∧ b ≠ Byte.openBracket ∧ b ≠ 0x74 ∧ b ≠ 0x66 ∧ b ≠ 0x6E ∧
      Byte.isSpace b = false := by
  revert b
  decide +kernel

theorem dispatch_number (o : DecodeOptions) (extent : Extent)
    (inside : Container → Reader Parsed) {b : UInt8} (h : startsNumber b = true) :
    dispatch o extent inside b = do return { value := ← scan (NumberLiteral.value o extent) } := by
  obtain ⟨h₁, h₂, h₃, h₄, h₅, h₆, -⟩ := startsNumber_spec h
  rw [dispatch, if_neg h₁, if_neg h₂, if_neg h₃, if_neg h₄, if_neg h₅, if_neg h₆, if_pos h]

theorem startsNumber_numeral (n : Grammar.Numeral) :
    ∃ b tail, n.text = b :: tail ∧ startsNumber b = true := by
  rw [Grammar.Numeral.text, Grammar.Numeral.signText]
  cases n.negative with
  | true => exact ⟨Byte.minus, _, rfl, rfl⟩
  | false =>
    have hd := n.whole.isDigit n.whole.first List.mem_cons_self
    exact ⟨n.whole.first, _, rfl, by rw [startsNumber, hd, Bool.or_true]⟩

/-- Out of range, the reader stays where the numeral starts. -/
theorem value_numeral_run (o : DecodeOptions) (extent : Extent) (levels : Nat)
    (n : Grammar.Numeral) {rest : Bytes} (hr : n.Ends extent rest) (keys : KeyCache) :
    value o extent levels ⟨n.text ++ rest, keys⟩ =
      match Value.ofNumeral? o.bigInteger n.text with
      | some v => .ok { value := v } ⟨rest, keys⟩
      | none => .error .numberOutOfRange ⟨n.text ++ rest, keys⟩ := by
  obtain ⟨b, tail, ht, hb⟩ := startsNumber_numeral n
  have hrun := NumberLiteral.value_numeral o extent n rest hr
  rw [ht, List.cons_append, value_cons o extent levels (startsNumber_spec hb).2.2.2.2.2.2,
    dispatch_number o extent _ hb, ← List.cons_append, ← ht, bind_run, scan_run, hrun]
  cases Value.ofNumeral? o.bigInteger n.text <;> rfl

theorem value_numeral (o : DecodeOptions) (extent : Extent) (levels : Nat) (n : Grammar.Numeral)
    {v : Value} (hv : Value.ofNumeral? o.bigInteger n.text = some v) {rest : Bytes}
    (hr : n.Ends extent rest) (keys : KeyCache) :
    value o extent levels ⟨n.text ++ rest, keys⟩ = .ok { value := v } ⟨rest, keys⟩ := by
  rw [value_numeral_run o extent levels n hr keys, hv]

theorem value_string (o : DecodeOptions) (extent : Extent) (levels : Nat) (ps : List Piece)
    (hp : Piece.Paired false ps) (rest : Bytes) (keys : KeyCache) :
    value o extent levels ⟨(Token.string ps).text ++ rest, keys⟩ =
      .ok { value := .string (Piece.spelled none ps) } ⟨rest, keys⟩ := by
  have hcontent := StringLiteral.content_join ps hp rest
  rw [Token.text, List.cons_append, value_cons o extent levels (by decide), dispatch, if_pos rfl,
    List.append_assoc, List.singleton_append]
  simp only [bind_run, skip_run, List.drop_one, List.tail_cons, scan_run, hcontent, pure_run]

/-- Words are told by their first byte; the one that starts with a minus is read as a number. -/
theorem dispatch_word (o : DecodeOptions) (extent : Extent) (inside : Container → Reader Parsed)
    {w : Word} (hw : w.isNonFinite = true → o.dialect.hasNonFinite = true)
    (hn : w ≠ .negativeInfinity) :
    ∃ b tail, w.text = b :: tail ∧ Byte.isSpace b = false ∧
      dispatch o extent inside b = named w.text w.value := by
  cases w with
  | true => exact ⟨_, _, rfl, by decide, rfl⟩
  | false => exact ⟨_, _, rfl, by decide, rfl⟩
  | null => exact ⟨_, _, rfl, by decide, rfl⟩
  | nan =>
    refine ⟨_, _, rfl, by decide, ?_⟩
    change (if o.dialect.hasNonFinite && true then _ else _) = _
    rw [hw rfl]
    rfl
  | infinity =>
    refine ⟨_, _, rfl, by decide, ?_⟩
    change (if o.dialect.hasNonFinite && false then _
      else if o.dialect.hasNonFinite && true then _ else _) = _
    rw [hw rfl]
    rfl
  | negativeInfinity => exact absurd rfl hn

theorem value_word (o : DecodeOptions) (extent : Extent) (levels : Nat) (w : Word)
    (hw : w.isNonFinite = true → o.dialect.hasNonFinite = true) (rest : Bytes) (keys : KeyCache) :
    value o extent levels ⟨w.text ++ rest, keys⟩ = .ok { value := w.value } ⟨rest, keys⟩ := by
  by_cases hn : w = .negativeInfinity
  · subst hn
    have hrun := NumberLiteral.value_infinity (hw rfl) extent rest
    change value o extent levels
      ⟨Byte.minus :: (NumberLiteral.infinityWord ++ rest), keys⟩ = _
    rw [value_cons o extent levels (by decide), dispatch_number o extent _ (by decide), bind_run,
      scan_run, hrun]
    rfl
  · obtain ⟨b, tail, ht, hb, hd⟩ := dispatch_word o extent (inside o extent levels) hw hn
    have hrun := named_run w.text w.value rest keys
    rw [ht, List.cons_append, value_cons o extent levels hb, hd, ← List.cons_append, ← ht, hrun]

theorem value_token (o : DecodeOptions) (extent : Extent) (levels : Nat) {t : Token}
    (ht : t.Readable o) {rest : Bytes} (hr : t.Ends extent rest) (keys : KeyCache) :
    value o extent levels ⟨t.text ++ rest, keys⟩ =
      .ok { value := t.value o.bigInteger } ⟨rest, keys⟩ := by
  cases t with
  | word w => exact value_word o extent levels w ht rest keys
  | numeral n =>
    obtain ⟨v, hv⟩ := Option.isSome_iff_exists.1 ht
    rw [Token.text, value_numeral o extent levels n hv hr, Token.value, hv, Option.getD_some]
  | string ps => exact value_string o extent levels ps ht rest keys

theorem key_run (o : DecodeOptions) (bytes text : Bytes) (keys : KeyCache) :
    ∃ k keys', key o bytes ⟨text, keys⟩ = .ok k ⟨text, keys'⟩ ∧ k.bytes = bytes := by
  refine ⟨(if o.useKeyCache then keys.intern bytes else keys.make bytes).1,
    (if o.useKeyCache then keys.intern bytes else keys.make bytes).2, rfl, ?_⟩
  split_ifs
  · exact KeyCache.bytes_intern keys bytes
  · exact KeyCache.bytes_make keys bytes

theorem skipsBlanks_member (o : DecodeOptions) (value : Reader Parsed) :
    SkipsBlanks (member o value) := skipsBlanks_peek _

theorem expect_eq_ok {wanted : UInt8} {text rest : Bytes} {u : Unit}
    (h : Scanner.expect wanted text = .ok u rest) : text = wanted :: rest := by
  rw [expect_run] at h
  cases text with
  | nil => cases h
  | cons b tail =>
    simp only at h
    split_ifs at h with hb
    rw [hb, (EStateM.Result.ok.inj h).2]

theorem member_run (o : DecodeOptions) (value : Reader Parsed) (name : Name)
    (hp : Piece.Paired false name.pieces) (text : Bytes) (keys : KeyCache) :
    ∃ k keys', k.bytes = name.key ∧
      member o value ⟨name.text ++ text, keys⟩ = match value ⟨text, keys'⟩ with
        | .ok parsed cursor => .ok (k, parsed.value) cursor
        | .error fault cursor => .error fault cursor := by
  obtain ⟨k, keys', hkey, hbytes⟩ := key_run o (Piece.spelled none name.pieces)
    (name.between.text ++ Byte.colon :: text) keys
  refine ⟨k, keys', hbytes, ?_⟩
  have hcontent := StringLiteral.content_join name.pieces hp
    (name.between.text ++ Byte.colon :: text)
  have htext : name.text ++ text = name.before.text ++
      Byte.quote :: (Piece.join name.pieces ++ Byte.quote ::
        (name.between.text ++ Byte.colon :: text)) := by
    simp [Name.text, Token.text]
  rw [htext, member, bind_run, peek_blanks name.before (by decide)]
  have hskip : Scanner.skipSpace (name.between.text ++ Byte.colon :: text) =
      .ok ⟨⟩ (Byte.colon :: text) := by
    rw [skipSpace_run, dropWhile_blanks name.between (by simp [NotAhead]; decide)]
  have hexpect : Scanner.expect Byte.colon (Byte.colon :: text) = .ok ⟨⟩ text :=
    (expect_run Byte.colon _).trans (if_pos rfl)
  simp only [ne_eq, not_true_eq_false, ↓reduceIte, bind_run, skip_run, List.drop_one,
    List.tail_cons, scan_run, hcontent, hkey, hskip, hexpect]
  cases value ⟨text, keys'⟩ <;> rfl

theorem member_eq_ok {o : DecodeOptions} {value : Reader Parsed} {text : Bytes} {keys : KeyCache}
    {m : Key × Value} {cursor : Cursor} (h : member o value ⟨text, keys⟩ = .ok m cursor) :
    ∃ (name : Name) (rest : Bytes), text = name.text ++ rest ∧ Piece.Paired false name.pieces ∧
      ∃ parsed keys', value ⟨rest, keys'⟩ = .ok parsed cursor := by
  obtain ⟨b, s, hp, h⟩ := bind_eq_ok.1 h
  obtain ⟨before, rest, rfl, -, rfl⟩ := peek_eq_ok hp
  by_cases hq : b = Byte.quote
  · subst hq
    simp only [ne_eq, not_true_eq_false, ↓reduceIte] at h
    obtain ⟨_, s, hskip, h⟩ := bind_eq_ok.1 h
    obtain ⟨-, rfl⟩ := EStateM.Result.ok.inj hskip
    obtain ⟨bytes, s, hscan, h⟩ := bind_eq_ok.1 h
    obtain ⟨rest', hcontent, rfl⟩ := scan_eq_ok.1 hscan
    obtain ⟨ps, hpaired, htext, -⟩ := StringLiteral.content_eq_ok hcontent
    obtain ⟨k, s, hkey, h⟩ := bind_eq_ok.1 h
    obtain ⟨k', keys', hkey', -⟩ := key_run o bytes rest' keys
    obtain ⟨-, rfl⟩ := EStateM.Result.ok.inj (hkey.symm.trans hkey')
    obtain ⟨_, s, hscan', h⟩ := bind_eq_ok.1 h
    obtain ⟨tail, hboth, rfl⟩ := scan_eq_ok.1 hscan'
    obtain ⟨_, s, hs, hcolon⟩ := bind_eq_ok.1 hboth
    obtain ⟨-, rfl⟩ := EStateM.Result.ok.inj hs
    obtain ⟨between, hbetween⟩ := exists_blanks rest'
    obtain ⟨parsed, s, hvalue, h⟩ := bind_eq_ok.1 h
    obtain ⟨-, rfl⟩ := EStateM.Result.ok.inj h
    refine ⟨⟨before, ps, between⟩, tail, ?_, hpaired, parsed, keys', hvalue⟩
    have hrest : rest' = between.text ++ Byte.colon :: tail := by
      rw [← expect_eq_ok hcolon]
      exact hbetween
    simp only [List.drop_one, List.tail_cons] at htext
    rw [htext, hrest]
    simp [Name.text, Token.text]
  · simp [hq, bind_run] at h

end JsonCodec.Reader
