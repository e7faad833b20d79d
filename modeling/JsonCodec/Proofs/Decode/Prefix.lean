import Mathlib
import JsonCodec.Proofs.Location
import JsonCodec.Proofs.Decode.Document

set_option autoImplicit false

namespace JsonCodec
open Grammar Runs

namespace NumberLiteral

theorem exponentPart_whole_error {mark : UInt8} {tail : Bytes}
    (hm : Byte.isExponentMark mark = true) (hf : exponentFollows .leading tail = false) :
    ∃ s, exponentPart .whole (mark :: tail) = .error .missingExponent s := by
  rw [exponentPart_mark .whole (by rw [hm]; rfl), signPart_run]
  rcases tail with _ | ⟨b, more⟩
  · cases hf
  · simp only [exponentFollows, Numeral.skipSign] at hf
    by_cases hs : Byte.isSign b = true
    · rw [if_pos hs] at hf
      rcases more with _ | ⟨c, more⟩
      · cases hf
      · simp only at hf
        simp [hs, needDigit, bind_run, hf]
    · rw [if_neg hs] at hf
      simp only at hf
      simp [hs, needDigit, bind_run, hf]

theorem unsigned_whole_error (n : Grammar.Numeral) (hn : n.exponent = none) {mark : UInt8}
    {tail : Bytes} (hm : Byte.isExponentMark mark = true)
    (hf : exponentFollows .leading tail = false) :
    ∃ s, unsigned .whole n.negative (n.unsignedText ++ mark :: tail) =
      .error .missingExponent s := by
  obtain ⟨s, hexp⟩ := exponentPart_whole_error hm hf
  have hd : NotAhead Byte.isDigit (mark :: tail) := by simpa [NotAhead] using (mark_plain hm).1
  have hp : NotAhead (· == Byte.point) (mark :: tail) := by
    simpa [NotAhead] using (mark_plain hm).2
  have hw := integerPart_digits n.whole n.zero_alone (Digits.pointTextOf n.fraction ++ mark :: tail)
    fun _ => notAhead_point _ _ fun _ => hd
  have hfrac := fractionPart_digits (wholeWord n.whole) n.fraction (mark :: tail)
    (fun _ => hp) fun _ => hd
  refine ⟨s, ?_⟩
  simp only [Grammar.Numeral.unsignedText, hn, Exponent.textOf, List.append_nil, List.append_assoc,
    unsigned_run, hw, hfrac, hexp]

/-- A numeral that a mark follows is no value of its own where one value is wanted. -/
theorem value_whole_error (o : DecodeOptions) (n : Grammar.Numeral) (hn : n.exponent = none)
    {mark : UInt8} {tail : Bytes} (hm : Byte.isExponentMark mark = true)
    (hf : exponentFollows .leading tail = false) :
    ∃ s, value o .whole (n.text ++ mark :: tail) = .error .missingExponent s := by
  obtain ⟨s, hrun⟩ := unsigned_whole_error n hn hm hf
  refine ⟨s, ?_⟩
  rw [value_text, unsignedValue, hrun]

end NumberLiteral

namespace Grammar

theorem Numeral.mark_iff (n : Grammar.Numeral) :
    (∃ b ∈ n.text, Byte.isExponentMark b = true) ↔ n.exponent ≠ none := by
  have hdigit (d : Digits) (b : UInt8) (hb : b ∈ d.text) : Byte.isExponentMark b = false := by
    by_contra hm
    have h := (mark_plain (by simpa using hm)).1
    rw [d.isDigit b hb] at h
    cases h
  constructor
  · rintro ⟨b, hb, hm⟩ hn
    simp only [Numeral.text, Numeral.unsignedText, hn, Exponent.textOf, List.append_nil,
      List.mem_append] at hb
    rcases hb with hb | hb | hb
    · rw [Numeral.signText] at hb
      split_ifs at hb
      · rw [List.mem_singleton.1 hb] at hm
        exact absurd hm (by decide)
      · cases hb
    · rw [hdigit _ b hb] at hm
      cases hm
    · cases hf : n.fraction with
      | none => simp [hf, Digits.pointTextOf] at hb
      | some d =>
        rw [hf, Digits.pointTextOf] at hb
        rcases List.mem_cons.1 hb with rfl | hb
        · exact absurd hm (by decide)
        · rw [hdigit d b hb] at hm
          cases hm
  · intro hn
    obtain ⟨e, he⟩ := Option.ne_none_iff_exists'.1 hn
    refine ⟨e.mark, ?_, e.isMark⟩
    simp [Numeral.text, Numeral.unsignedText, he, Exponent.textOf, Exponent.text]

theorem Word.isDigit_text (w : Word) : ∀ b ∈ w.text, Byte.isDigit b = Bool.false := by
  cases w <;> decide +kernel

theorem Tree.eq_numeral {t : Tree} {m : Grammar.Numeral} (h : t.text = m.text) :
    ∃ n, t = .token (.numeral n) ∧ n.text = m.text := by
  obtain ⟨b, tail, hm, hb⟩ := Reader.startsNumber_numeral m
  have hspec := Reader.startsNumber_spec hb
  rw [hm] at h
  cases t with
  | token k =>
    rw [Tree.text] at h
    cases k with
    | numeral n => exact ⟨n, rfl, by rw [hm]; exact h⟩
    | string ps =>
      obtain ⟨rfl, -⟩ := List.cons.inj h
      exact absurd rfl hspec.1
    | word w =>
      have hmem : m.whole.first ∈ m.text := by
        simp [Numeral.text, Numeral.unsignedText, Digits.text]
      rw [hm, ← h] at hmem
      have hd := m.whole.isDigit m.whole.first List.mem_cons_self
      rw [w.isDigit_text _ hmem] at hd
      cases hd
  | empty c blanks =>
    rw [Tree.text] at h
    obtain ⟨rfl, -⟩ := List.cons.inj h
    cases c
    · exact absurd rfl hspec.2.2.1
    · exact absurd rfl hspec.2.1
  | array items =>
    rw [Tree.text] at h
    obtain ⟨rfl, -⟩ := List.cons.inj h
    exact absurd rfl hspec.2.2.1
  | object members =>
    rw [Tree.text] at h
    obtain ⟨rfl, -⟩ := List.cons.inj h
    exact absurd rfl hspec.2.1

end Grammar

namespace Decode

def MarkFollows (text : Bytes) (n : Nat) : Prop :=
  (∃ (before : Blanks) (m : Grammar.Numeral), m.exponent = none ∧
      text.take n = before.text ++ m.text) ∧
    ∃ b, text[n]? = some b ∧ Byte.isExponentMark b = true

/-- Decoding the first value of a text and decoding the text as one value agree. -/
structure PrefixAgreement (o : DecodeOptions) (text : Bytes) (cache cache' : KeyCache) : Prop where
  take : ∀ p n keys, first o (.bytes text) cache = (.ok (p, n), keys) →
    1 ≤ n ∧ n ≤ text.length ∧ (∃ b, text[n - 1]? = some b ∧ Byte.isSpace b = false) ∧
      ∃ p' keys', whole o (.bytes (text.take n)) cache' = (.ok p', keys') ∧ p'.value = p.value
  whole_iff : ∀ v, (∃ p keys, whole o (.bytes text) cache' = (.ok p, keys) ∧ p.value = v) ↔
    ∃ p n keys, first o (.bytes text) cache = (.ok (p, n), keys) ∧ p.value = v ∧
      (text.drop n).all Byte.isSpace = true
  /-- What follows the first value is reported where it starts, unless it could have been the
  exponent of a numeral. -/
  trailing : ∀ p n keys, first o (.bytes text) cache = (.ok (p, n), keys) →
    (text.drop n).all Byte.isSpace = false →
    ∃ e keys', whole o (.bytes text) cache' = (.error e, keys') ∧
      (MarkFollows text n → e.code = .invalidNumber) ∧
      (¬ MarkFollows text n → e.code = .trailingData ∧
        e.location = locate text (n + ((text.drop n).takeWhile Byte.isSpace).length) ∧
        e.location.offset = n + ((text.drop n).takeWhile Byte.isSpace).length)
  error : ∀ e keys, first o (.bytes text) cache = (.error e, keys) →
    ∃ e' keys', whole o (.bytes text) cache' = (.error e', keys')
  shortLiteral : ∀ v, shortLiteral? text = some v →
    (∃ p keys, Reader.document o ⟨text, cache'⟩ = .ok p ⟨[], keys⟩ ∧ p.value = v) ∧
      ∃ p keys, first o (.bytes text) cache = (.ok (p, text.length), keys) ∧ p.value = v

variable {o : DecodeOptions} {text : Bytes} {t : Tree}

theorem checks_split {before : Blanks} {rest : Bytes}
    (h : o.Checks (before.text ++ t.text ++ rest)) :
    o.Checks (before.text ++ t.text) ∧ o.Checks rest := by
  obtain ⟨init, b, ht, hb⟩ := t.exists_closes
  have hsplit (hv : o.validateUtf8 = true) : Utf8.WellFormed (before.text ++ t.text) ∧
      Utf8.WellFormed rest := by
    have hw := h hv
    rw [ht, ← List.append_assoc, List.append_assoc _ [b], List.singleton_append] at hw
    obtain ⟨hl, hr⟩ := hw.split hb.2
    rw [List.append_assoc, ← ht] at hl
    exact ⟨hl, hr⟩
  exact ⟨fun hv => (hsplit hv).1, fun hv => (hsplit hv).2⟩

theorem take_drop_cut {before : Blanks} {rest : Bytes}
    (ht : text = before.text ++ t.text ++ rest) :
    text.take (text.length - rest.length) = before.text ++ t.text ∧
      text.drop (text.length - rest.length) = rest := by
  have hlen : text.length - rest.length = (before.text ++ t.text).length := by
    simp only [ht, List.length_append]
    omega
  rw [hlen, ht, List.take_left, List.drop_left]
  exact ⟨rfl, rfl⟩

theorem cut_bounds {before : Blanks} {rest : Bytes} (ht : text = before.text ++ t.text ++ rest) :
    1 ≤ text.length - rest.length ∧ text.length - rest.length ≤ text.length ∧
      ∃ b, text[text.length - rest.length - 1]? = some b ∧ Byte.isSpace b = false := by
  obtain ⟨init, b, hlast, hb⟩ := t.exists_closes
  have hsplit : text = (before.text ++ init) ++ b :: rest := by
    rw [ht, hlast]
    simp
  have hlen : text.length - rest.length = (before.text ++ init).length + 1 := by
    simp only [hsplit, List.length_append, List.length_cons]
    omega
  refine ⟨by omega, Nat.sub_le _ _, b, ?_, hb.1⟩
  rw [hlen, Nat.add_sub_cancel, hsplit, List.getElem?_append_right le_rfl, Nat.sub_self]
  rfl

/-- No text at which the parser fails is one of the shortest, which are not left to it. -/
theorem whole_of_document_error (hc : o.Checks text) {fault : Fault} {s : Bytes}
    {cache keys : KeyCache} (h : Reader.document o ⟨text, cache⟩ = .error fault ⟨s, keys⟩) :
    whole o (.bytes text) cache = (.error (DecodeError.ofFault text s fault), keys) := by
  have hshort : shortLiteral? text = none := by
    cases hs : shortLiteral? text with
    | none => rfl
    | some v =>
      obtain ⟨p, keys, hrun, -⟩ := document_shortLiteral? hs o cache
      rw [h] at hrun
      cases hrun
  simp only [whole, Source.read_of_checks hc, hshort, run, h, Except.map]

theorem whole_trailing (hc : o.Checks text) {before : Blanks} {rest : Bytes}
    (ht : text = before.text ++ t.text ++ rest) (hd : t.depth ≤ o.depthLimit)
    (hr : ∀ k ∈ t.tokens, k.Readable o) (he : t.Ends .whole rest)
    (hrest : rest.dropWhile Byte.isSpace ≠ []) (cache : KeyCache) :
    ∃ keys, whole o (.bytes text) cache =
      (.error (DecodeError.ofFault text (rest.dropWhile Byte.isSpace) .trailingContent), keys) := by
  obtain ⟨p, keys, hrun, -⟩ := Reader.value_blanks_tree o .whole o.depthLimit before hd hr he cache
  have hdoc : Reader.document o ⟨text, cache⟩ =
      .error .trailingContent ⟨rest.dropWhile Byte.isSpace, keys⟩ := by
    rw [ht, document_run, hrun]
    simp only [if_neg hrest]
  exact ⟨keys, whole_of_document_error hc hdoc⟩

theorem whole_mark (hc : o.Checks text) {before : Blanks} {n : Grammar.Numeral} {mark : UInt8}
    {tail : Bytes} (ht : text = before.text ++ (n.text ++ mark :: tail)) (hn : n.exponent = none)
    (hm : Byte.isExponentMark mark = true)
    (hf : NumberLiteral.exponentFollows .leading tail = false) (cache : KeyCache) :
    ∃ e keys, whole o (.bytes text) cache = (.error e, keys) ∧ e.code = .invalidNumber := by
  obtain ⟨b, more, hb, hstart⟩ := Reader.startsNumber_numeral n
  have hspace := (Reader.startsNumber_spec hstart).2.2.2.2.2.2
  obtain ⟨s, hrun⟩ := NumberLiteral.value_whole_error o n hn hm hf
  have hvalue : Reader.value o .whole o.depthLimit ⟨text, cache⟩ =
      .error .missingExponent ⟨s, cache⟩ := by
    rw [ht, (Reader.skipsBlanks_value o .whole o.depthLimit).run before
      (by rw [hb]; simpa [NotAhead] using hspace), hb, List.cons_append,
      Reader.value_cons o .whole _ hspace, Reader.dispatch_number o .whole _ hstart,
      ← List.cons_append, ← hb, bind_run, scan_run, hrun]
  have hdoc : Reader.document o ⟨text, cache⟩ = .error .missingExponent ⟨s, cache⟩ := by
    rw [document_run, hvalue]
  exact ⟨DecodeError.ofFault text s .missingExponent, cache, whole_of_document_error hc hdoc, rfl⟩

theorem shortLiteral?_ascii {v : Value} (h : shortLiteral? text = some v) :
    ∀ b ∈ text, b < 0x80 := by
  rcases text with _ | ⟨a, _ | ⟨b, _ | ⟨c, more⟩⟩⟩
  · cases h
  · cases h
  · simp only [shortLiteral?, Bool.and_eq_true, decide_eq_true_eq] at h
    split_ifs at h with harray hobject hstring
    · obtain ⟨rfl, rfl⟩ := harray
      decide +kernel
    · obtain ⟨rfl, rfl⟩ := hobject
      decide +kernel
    · obtain ⟨rfl, rfl⟩ := hstring
      decide +kernel
  · cases h

/-- Behind a numeral without an exponent a mark is followed by no exponent. -/
theorem exists_mark {before : Blanks} {rest : Bytes} (ht : text = before.text ++ t.text ++ rest)
    (he : t.Ends .leading rest) (hm : MarkFollows text (text.length - rest.length)) :
    ∃ (n : Grammar.Numeral) (mark : UInt8) (tail : Bytes), t = .token (.numeral n) ∧
      n.exponent = none ∧ rest = mark :: tail ∧ Byte.isExponentMark mark = true ∧
      NumberLiteral.exponentFollows .leading tail = false := by
  obtain ⟨htake, hdrop⟩ := take_drop_cut ht
  obtain ⟨⟨before', m, hnone, hcut⟩, mark, hmark, hm⟩ := hm
  rw [htake] at hcut
  have hdropt := congrArg (List.dropWhile Byte.isSpace) hcut
  have hspace := t.notAhead_space []
  rw [List.append_nil] at hspace
  obtain ⟨b, tail, hb, hstart⟩ := Reader.startsNumber_numeral m
  rw [Reader.dropWhile_blanks before hspace, Reader.dropWhile_blanks before' (by
    rw [hb]
    simpa [NotAhead] using (Reader.startsNumber_spec hstart).2.2.2.2.2.2)] at hdropt
  obtain ⟨n, rfl, hn⟩ := Tree.eq_numeral hdropt
  have hnexp : n.exponent = none := by
    by_contra hne
    have hmem := n.mark_iff.2 hne
    rw [hn] at hmem
    exact (m.mark_iff.1 hmem) hnone
  rw [← List.head?_drop, hdrop] at hmark
  rcases rest with _ | ⟨c, more⟩
  · cases hmark
  · obtain rfl : c = mark := Option.some.inj hmark
    have hends : n.Ends .leading (c :: more) := he
    have hno := ((NumberLiteral.ends_iff .leading n _).1 hends).2.1 hnexp c more rfl
    rw [hm, Bool.true_and] at hno
    exact ⟨n, c, more, rfl, hnexp, rfl, hm, hno⟩

theorem ends_whole {before : Blanks} {rest : Bytes} (ht : text = before.text ++ t.text ++ rest)
    (he : t.Ends .leading rest) (hm : ¬ MarkFollows text (text.length - rest.length)) :
    t.Ends .whole rest := by
  cases t with
  | token k =>
    cases k with
    | word w => trivial
    | string ps => trivial
    | numeral n =>
      apply Numeral.ends_whole he
      intro hn b hb
      by_contra hmark
      obtain ⟨htake, hdrop⟩ := take_drop_cut ht
      refine hm ⟨⟨before, n, hn, htake⟩, b, ?_, by simpa using hmark⟩
      rw [← List.head?_drop, hdrop]
      exact hb
  | empty c blanks => trivial
  | array items => trivial
  | object members => trivial

theorem first_of_whole {p : Parsed} {cache keys : KeyCache}
    (h : whole o (.bytes text) cache = (.ok p, keys)) (cache' : KeyCache) :
    ∃ p' n keys', first o (.bytes text) cache' = (.ok (p', n), keys') ∧ p'.value = p.value ∧
      (text.drop n).all Byte.isSpace = true := by
  obtain ⟨hc, before, t, after, ht, hd, hr, hv⟩ := whole_eq_ok h
  have hstop : Stops after.text := by simpa using stops_blanks after stops_nil
  obtain ⟨p', keys', hrun, hv'⟩ := first_tree hc ht hd hr (hstop.tree .leading t) cache'
  refine ⟨p', _, keys', hrun, hv'.trans hv.symm, ?_⟩
  rw [(take_drop_cut ht).2]
  exact List.all_eq_true.2 after.isSpace

theorem whole_of_first {p : Parsed} {n : Nat} {cache keys : KeyCache}
    (h : first o (.bytes text) cache = (.ok (p, n), keys))
    (hblank : (text.drop n).all Byte.isSpace = true) (cache' : KeyCache) :
    ∃ p' keys', whole o (.bytes text) cache' = (.ok p', keys') ∧ p'.value = p.value := by
  obtain ⟨hc, before, t, rest, ht, hd, hr, he, rfl, hv⟩ := first_eq_ok h
  rw [(take_drop_cut ht).2] at hblank
  obtain ⟨p', keys', hrun, hv'⟩ := @whole_tree o text t hc before
    ⟨rest, List.all_eq_true.1 hblank⟩ ht hd hr cache'
  exact ⟨p', keys', hrun, hv'.trans hv.symm⟩

theorem whole_behind_first {p : Parsed} {n : Nat} {cache keys : KeyCache}
    (h : first o (.bytes text) cache = (.ok (p, n), keys))
    (hblank : (text.drop n).all Byte.isSpace = false) (hm : ¬ MarkFollows text n)
    (cache' : KeyCache) :
    ∃ keys', whole o (.bytes text) cache' =
      (.error (DecodeError.ofFault text ((text.drop n).dropWhile Byte.isSpace) .trailingContent),
        keys') := by
  obtain ⟨hc, before, t, rest, ht, hd, hr, he, rfl, hv⟩ := first_eq_ok h
  rw [(take_drop_cut ht).2] at hblank ⊢
  refine whole_trailing hc ht hd hr (ends_whole ht he hm) (fun hnil => ?_) cache'
  rw [List.all_eq_true.2 (List.dropWhile_eq_nil_iff.1 hnil)] at hblank
  cases hblank

theorem whole_mark_behind_first {p : Parsed} {n : Nat} {cache keys : KeyCache}
    (h : first o (.bytes text) cache = (.ok (p, n), keys)) (hm : MarkFollows text n)
    (cache' : KeyCache) :
    ∃ e keys', whole o (.bytes text) cache' = (.error e, keys') ∧ e.code = .invalidNumber := by
  obtain ⟨hc, before, t, rest, ht, hd, hr, he, rfl, hv⟩ := first_eq_ok h
  obtain ⟨m, mark, tail, rfl, hexp, rfl, hmark, hf⟩ := exists_mark ht he hm
  rw [List.append_assoc, Tree.text, Token.text] at ht
  exact whole_mark hc ht hexp hmark hf cache'

theorem length_sub_dropWhile (text : Bytes) {n : Nat} (hn : n ≤ text.length) :
    text.length - ((text.drop n).dropWhile Byte.isSpace).length =
      n + ((text.drop n).takeWhile Byte.isSpace).length := by
  have hsum := congrArg List.length
    (List.takeWhile_append_dropWhile (p := Byte.isSpace) (l := text.drop n))
  rw [List.length_append, List.length_drop] at hsum
  omega

theorem prefixAgreement (o : DecodeOptions) (text : Bytes) (cache cache' : KeyCache) :
    PrefixAgreement o text cache cache' where
  take p n keys h := by
    obtain ⟨hc, before, t, rest, ht, hd, hr, he, rfl, hv⟩ := first_eq_ok h
    obtain ⟨h₁, h₂, h₃⟩ := cut_bounds ht
    refine ⟨h₁, h₂, h₃, ?_⟩
    rw [ht] at hc
    have hcut := (take_drop_cut ht).1
    obtain ⟨p', keys', hrun, hv'⟩ := @whole_tree o _ t (checks_split hc).1 before Blanks.none
      (by simp [Blanks.none]) hd hr cache'
    exact ⟨p', keys', by rw [hcut]; exact hrun, hv'.trans hv.symm⟩
  whole_iff v := by
    constructor
    · rintro ⟨p, keys, h, rfl⟩
      exact first_of_whole h cache
    · rintro ⟨p, n, keys, h, rfl, hblank⟩
      exact whole_of_first h hblank cache'
  trailing p n keys h hblank := by
    by_cases hm : MarkFollows text n
    · obtain ⟨e, keys', hrun, hcode⟩ := whole_mark_behind_first h hm cache'
      exact ⟨e, keys', hrun, fun _ => hcode, fun hno => absurd hm hno⟩
    · obtain ⟨keys', hrun⟩ := whole_behind_first h hblank hm cache'
      have hn : n ≤ text.length := by
        obtain ⟨_, _, _, rest, _, _, _, _, rfl, _⟩ := first_eq_ok h
        exact Nat.sub_le _ _
      have hoffset := length_sub_dropWhile text hn
      have hle := (List.takeWhile_prefix Byte.isSpace (l := text.drop n)).length_le
      rw [List.length_drop] at hle
      refine ⟨_, keys', hrun, fun h => absurd h hm, fun _ => ?_⟩
      refine ⟨rfl, congrArg (locate text) hoffset, ?_⟩
      simp only [DecodeError.ofFault, offset_locate, hoffset]
      omega
  error e keys h := by
    cases hw : whole o (.bytes text) cache' with
    | mk result keys' =>
      cases result with
      | error e' => exact ⟨e', keys', rfl⟩
      | ok p =>
        obtain ⟨p', n, keys'', hrun, -, -⟩ := first_of_whole hw cache
        rw [h] at hrun
        cases hrun
  shortLiteral v h := by
    refine ⟨document_shortLiteral? h o cache', ?_⟩
    obtain ⟨t, ht, hd, hr, rfl⟩ := @shortLiteral?_tree o text v h
    have hc : o.Checks text := fun _ => Utf8.wellFormed_ascii (shortLiteral?_ascii h)
    exact @first_tree o text t hc Blanks.none [] (by simpa [Blanks.none] using ht) hd hr
      (stops_nil.tree .leading t) cache

end Decode
end JsonCodec
