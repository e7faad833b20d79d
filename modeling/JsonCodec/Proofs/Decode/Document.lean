import Mathlib
import JsonCodec.Decode.Document
import JsonCodec.Proofs.Utf8
import JsonCodec.Proofs.Decode.Tree

set_option autoImplicit false

namespace JsonCodec
open Grammar Runs

def DecodeOptions.Checks (o : DecodeOptions) (text : Bytes) : Prop :=
  o.validateUtf8 = true → Utf8.WellFormed text

theorem DecodeOptions.depthLimit_pos (o : DecodeOptions) : 1 ≤ o.depthLimit := by
  unfold depthLimit
  split_ifs <;> omega

namespace Source

theorem read_of_checks {o : DecodeOptions} {text : Bytes} (h : o.Checks text) :
    (Source.bytes text).read o = .ok text := by
  have hnil : o.validateUtf8 = true → Utf8.illFormed text = [] := fun hv =>
    (Utf8.illFormed_eq_nil_iff text).2 (h hv)
  cases hv : o.validateUtf8 with
  | true => simp [read, hv, hnil hv]
  | false => simp [read, hv]

theorem read_of_not_checks {o : DecodeOptions} {text : Bytes} (h : ¬ o.Checks text) :
    (Source.bytes text).read o =
      .error (DecodeError.ofFault text (Utf8.illFormed text) .invalidUtf8) := by
  rw [DecodeOptions.Checks, Classical.not_imp] at h
  obtain ⟨hv, hbad⟩ := h
  rw [← Utf8.illFormed_eq_nil_iff] at hbad
  simp [read, hv, hbad]

theorem checks_of_read {o : DecodeOptions} {text t : Bytes}
    (h : (Source.bytes text).read o = .ok t) : t = text ∧ o.Checks text := by
  simp only [read] at h
  split_ifs at h with hbad
  refine ⟨(Except.ok.inj h).symm, fun hv => (Utf8.illFormed_eq_nil_iff text).1 ?_⟩
  simpa [hv] using hbad

end Source

namespace Decode

variable {o : DecodeOptions} {text : Bytes} {t : Tree} {cache keys : KeyCache}

theorem first_eq_ok_iff {p : Parsed} {n : Nat} :
    first o (.bytes text) cache = (.ok (p, n), keys) ↔ o.Checks text ∧
      ∃ rest, Reader.leadingValue o ⟨text, cache⟩ = .ok p ⟨rest, keys⟩ ∧
        n = text.length - rest.length := by
  unfold first
  cases hread : (Source.bytes text).read o with
  | error e =>
    refine ⟨fun h => by simp at h, fun ⟨hc, _⟩ => ?_⟩
    rw [Source.read_of_checks hc] at hread
    cases hread
  | ok text' =>
    obtain ⟨rfl, hc⟩ := Source.checks_of_read hread
    cases hrun : Reader.leadingValue o ⟨text', cache⟩ with
    | error fault s => simp [run, hrun, Except.map]
    | ok parsed s =>
      obtain ⟨rest, keys'⟩ := s
      simp only [run, hrun, Except.map, Prod.mk.injEq, Except.ok.injEq, hc, true_and,
        EStateM.Result.ok.injEq, Cursor.mk.injEq]
      constructor
      · rintro ⟨⟨rfl, rfl⟩, rfl⟩
        exact ⟨rest, ⟨rfl, rfl, rfl⟩, rfl⟩
      · rintro ⟨rest, ⟨rfl, rfl, rfl⟩, rfl⟩
        exact ⟨⟨rfl, rfl⟩, rfl⟩

theorem first_tree (hc : o.Checks text) {before : Blanks} {rest : Bytes}
    (ht : text = before.text ++ t.text ++ rest) (hd : t.depth ≤ o.depthLimit)
    (hr : ∀ k ∈ t.tokens, k.Readable o) (he : t.Ends .leading rest) (cache : KeyCache) :
    ∃ p keys, first o (.bytes text) cache = (.ok (p, text.length - rest.length), keys) ∧
      p.value = t.value (Token.value o.bigInteger) := by
  obtain ⟨p, keys, hrun, hv⟩ := Reader.value_blanks_tree o .leading o.depthLimit before hd hr he cache
  rw [← ht] at hrun
  exact ⟨p, keys, first_eq_ok_iff.2 ⟨hc, rest, hrun, rfl⟩, hv⟩

theorem first_eq_ok {p : Parsed} {n : Nat} (h : first o (.bytes text) cache = (.ok (p, n), keys)) :
    o.Checks text ∧ ∃ (before : Blanks) (t : Tree) (rest : Bytes),
      text = before.text ++ t.text ++ rest ∧ t.depth ≤ o.depthLimit ∧
      (∀ k ∈ t.tokens, k.Readable o) ∧ t.Ends .leading rest ∧ n = text.length - rest.length ∧
      p.value = t.value (Token.value o.bigInteger) := by
  obtain ⟨hc, rest, hrun, rfl⟩ := first_eq_ok_iff.1 h
  obtain ⟨before, t, ht, hd, hr, he⟩ := Reader.startsWithTree_of_value o .leading _ _ _ _ _ _ hrun
  obtain ⟨p', keys', hrun', hv⟩ :=
    Reader.value_blanks_tree o .leading o.depthLimit before hd hr he cache
  rw [← ht] at hrun'
  obtain ⟨rfl, -⟩ := EStateM.Result.ok.inj (hrun.symm.trans hrun')
  exact ⟨hc, before, t, rest, ht, hd, hr, he, rfl, hv⟩

theorem document_run (o : DecodeOptions) (text : Bytes) (cache : KeyCache) :
    Reader.document o ⟨text, cache⟩ = match Reader.value o .whole o.depthLimit ⟨text, cache⟩ with
      | .error fault s => .error fault s
      | .ok parsed ⟨rest, keys⟩ =>
        if rest.dropWhile Byte.isSpace = [] then .ok parsed ⟨rest.dropWhile Byte.isSpace, keys⟩
        else .error .trailingContent ⟨rest.dropWhile Byte.isSpace, keys⟩ := by
  simp only [Reader.document, bind_run]
  cases Reader.value o .whole o.depthLimit ⟨text, cache⟩ with
  | error fault s => rfl
  | ok parsed s =>
    obtain ⟨rest, keys⟩ := s
    simp only [scan_run, skipSpace_run, get_run]
    cases rest.dropWhile Byte.isSpace with
    | nil => rfl
    | cons b tail => rfl

theorem dropWhile_eq_nil {after : Blanks} : after.text.dropWhile Byte.isSpace = [] :=
  List.dropWhile_eq_nil_iff.2 after.isSpace

theorem document_tree {before after : Blanks} (ht : text = before.text ++ t.text ++ after.text)
    (hd : t.depth ≤ o.depthLimit) (hr : ∀ k ∈ t.tokens, k.Readable o) (cache : KeyCache) :
    ∃ p keys, Reader.document o ⟨text, cache⟩ = .ok p ⟨[], keys⟩ ∧
      p.value = t.value (Token.value o.bigInteger) := by
  have hstop : Stops after.text := by simpa using stops_blanks after stops_nil
  obtain ⟨p, keys, hrun, hv⟩ :=
    Reader.value_blanks_tree o .whole o.depthLimit before hd hr (hstop.tree .whole t) cache
  refine ⟨p, keys, ?_, hv⟩
  rw [ht, document_run, hrun]
  simp only [dropWhile_eq_nil, ↓reduceIte]

theorem document_eq_ok {p : Parsed} {s : Cursor}
    (h : Reader.document o ⟨text, cache⟩ = .ok p s) :
    ∃ (before : Blanks) (t : Tree) (after : Blanks), text = before.text ++ t.text ++ after.text ∧
      t.depth ≤ o.depthLimit ∧ (∀ k ∈ t.tokens, k.Readable o) ∧
      p.value = t.value (Token.value o.bigInteger) := by
  rw [document_run] at h
  cases hrun : Reader.value o .whole o.depthLimit ⟨text, cache⟩ with
  | error fault s => simp [hrun] at h
  | ok parsed s' =>
    obtain ⟨rest, keys'⟩ := s'
    rw [hrun] at h
    simp only at h
    split_ifs at h with hnil
    obtain ⟨rfl, -⟩ := EStateM.Result.ok.inj h
    obtain ⟨before, t, ht, hd, hr, he⟩ := Reader.startsWithTree_of_value o .whole _ _ _ _ _ _ hrun
    obtain ⟨p, keys, hrun', hv⟩ :=
      Reader.value_blanks_tree o .whole o.depthLimit before hd hr he cache
    rw [← ht] at hrun'
    obtain ⟨rfl, -⟩ := EStateM.Result.ok.inj (hrun.symm.trans hrun')
    exact ⟨before, t, ⟨rest, List.dropWhile_eq_nil_iff.1 hnil⟩, ht, hd, hr, hv⟩

/-- The three shortest texts of a string or container are texts of trees like any other. -/
theorem shortLiteral?_tree {v : Value} (h : shortLiteral? text = some v) :
    ∃ t : Tree, text = t.text ∧ t.depth ≤ o.depthLimit ∧ (∀ k ∈ t.tokens, k.Readable o) ∧
      v = t.value (Token.value o.bigInteger) := by
  have hdepth := o.depthLimit_pos
  rcases text with _ | ⟨a, _ | ⟨b, _ | ⟨c, more⟩⟩⟩
  · cases h
  · cases h
  · simp only [shortLiteral?, Bool.and_eq_true, decide_eq_true_eq] at h
    split_ifs at h with harray hobject hstring
    · obtain ⟨rfl, rfl⟩ := harray
      exact ⟨.empty .array Blanks.none, by simp [Tree.text, openingByte, Blanks.none, Container.close],
        by simpa [Tree.depth] using hdepth, by simp [Tree.tokens], by rw [Tree.value, Option.some.inj h]⟩
    · obtain ⟨rfl, rfl⟩ := hobject
      exact ⟨.empty .object Blanks.none, by simp [Tree.text, openingByte, Blanks.none, Container.close],
        by simpa [Tree.depth] using hdepth, by simp [Tree.tokens], by rw [Tree.value, Option.some.inj h]⟩
    · obtain ⟨rfl, rfl⟩ := hstring
      exact ⟨.token (.string []), by simp [Tree.text, Token.text, Piece.join],
        by simp [Tree.depth], by simp [Tree.tokens, Token.Readable, Piece.Paired],
        by simp [Tree.value, Token.value, Piece.spelled, ← Option.some.inj h]⟩
  · cases h

theorem document_shortLiteral? {v : Value} (h : shortLiteral? text = some v) (o : DecodeOptions)
    (cache : KeyCache) :
    ∃ p keys, Reader.document o ⟨text, cache⟩ = .ok p ⟨[], keys⟩ ∧ p.value = v := by
  obtain ⟨t, ht, hd, hr, rfl⟩ := @shortLiteral?_tree o text v h
  exact @document_tree o text t Blanks.none Blanks.none (by simpa [Blanks.none] using ht) hd hr cache

theorem whole_eq_ok_iff {v : Value} (o : DecodeOptions) (text : Bytes) (cache : KeyCache) :
    (∃ p keys, whole o (.bytes text) cache = (.ok p, keys) ∧ p.value = v) ↔
      o.Checks text ∧ ∃ p s, Reader.document o ⟨text, cache⟩ = .ok p s ∧ p.value = v := by
  unfold whole
  cases hread : (Source.bytes text).read o with
  | error e =>
    refine ⟨fun ⟨p, keys, h, _⟩ => by simp at h, fun ⟨hc, _⟩ => ?_⟩
    rw [Source.read_of_checks hc] at hread
    cases hread
  | ok text' =>
    obtain ⟨rfl, hc⟩ := Source.checks_of_read hread
    simp only [hc, true_and]
    cases hs : shortLiteral? text' with
    | some w =>
      obtain ⟨p, keys, hrun, rfl⟩ := document_shortLiteral? hs o cache
      simp [hrun]
    | none =>
      cases hrun : Reader.document o ⟨text', cache⟩ with
      | ok p s => simp [run, hrun, Except.map]
      | error fault s => simp [run, hrun, Except.map]

theorem whole_tree (hc : o.Checks text) {before after : Blanks}
    (ht : text = before.text ++ t.text ++ after.text) (hd : t.depth ≤ o.depthLimit)
    (hr : ∀ k ∈ t.tokens, k.Readable o) (cache : KeyCache) :
    ∃ p keys, whole o (.bytes text) cache = (.ok p, keys) ∧
      p.value = t.value (Token.value o.bigInteger) := by
  obtain ⟨p, keys, hrun, hv⟩ := document_tree ht hd hr cache
  exact (whole_eq_ok_iff o text cache).2 ⟨hc, p, _, hrun, hv⟩

theorem whole_eq_ok {p : Parsed} (h : whole o (.bytes text) cache = (.ok p, keys)) :
    o.Checks text ∧ ∃ (before : Blanks) (t : Tree) (after : Blanks),
      text = before.text ++ t.text ++ after.text ∧ t.depth ≤ o.depthLimit ∧
      (∀ k ∈ t.tokens, k.Readable o) ∧ p.value = t.value (Token.value o.bigInteger) := by
  obtain ⟨hc, p', s, hrun, hp⟩ := (whole_eq_ok_iff o text cache).1 ⟨p, keys, h, rfl⟩
  obtain ⟨before, t, after, ht, hd, hr, hv⟩ := document_eq_ok hrun
  exact ⟨hc, before, t, after, ht, hd, hr, hp.symm.trans hv⟩

end Decode
end JsonCodec
