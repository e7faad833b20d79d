import Mathlib
import JsonCodec.Proofs.Decode.Acceptance
import JsonCodec.Proofs.Decode.Blindness
import JsonCodec.Proofs.Decode.KeysTaken
import JsonCodec.Proofs.Grammar.Walk
import JsonCodec.Proofs.Location

set_option autoImplicit false

namespace JsonCodec
open Grammar

namespace Decode

/-- The part of a text that has been read when a decoding ends: up to the end of the value, or up
to the fault. -/
def readPart (text : Bytes) : Except DecodeError Nat → Bytes
  | .ok n => text.take n
  | .error e => text.take e.location.offset

/-- Decoding with a cache and decoding without one. -/
structure Caching (o : DecodeOptions) (text : Bytes) (cache cache' : KeyCache) : Prop where
  whole : (whole o (.bytes text) cache).1.map Parsed.value =
    (Decode.whole { o with useKeyCache := false } (.bytes text) cache').1.map Parsed.value
  first : (first o (.bytes text) cache).1.map (fun (p, n) => (p.value, n)) =
    (Decode.first { o with useKeyCache := false } (.bytes text) cache').1.map
      fun (p, n) => (p.value, n)
  whole_cache : o.useKeyCache = true → o.Checks text →
    (Decode.whole o (.bytes text) cache).2 = cache.internAll (keyLiterals
      (readPart text ((Decode.whole o (.bytes text) cache).1.map fun _ => text.length)))
  first_cache : o.useKeyCache = true → o.Checks text →
    (Decode.first o (.bytes text) cache).2 = cache.internAll (keyLiterals
      (readPart text ((Decode.first o (.bytes text) cache).1.map Prod.snd)))
  illFormed : ¬ o.Checks text → (Decode.whole o (.bytes text) cache).2 = cache ∧
    (Decode.first o (.bytes text) cache).2 = cache
  keys : ∀ t, Derives o text t → keyLiterals text = t.names.map Name.key

variable {o : DecodeOptions} {text part : Bytes} {cache cache' : KeyCache}

theorem read_useKeyCache (o : DecodeOptions) (cached : Bool) (source : Source) :
    source.read { o with useKeyCache := cached } = source.read o := by
  cases source with
  | bytes text => rfl
  | absent size => cases size <;> rfl

theorem run_agree {x y : Reader Parsed} (h : Reader.Agree Reader.SameParsed x y) (text part : Bytes)
    (cache cache' : KeyCache) :
    (run text x part cache).1.map (fun (p, rest) => (p.value, rest)) =
      (run text y part cache').1.map fun (p, rest) => (p.value, rest) := by
  have hrun := h part cache cache'
  unfold run
  cases hx : x ⟨part, cache⟩ with
  | ok p s =>
    rw [hx] at hrun
    obtain ⟨p', keys, hy, hp⟩ := hrun.of_ok
    simp only [hy, Except.map, hp.value]
  | error fault s =>
    rw [hx] at hrun
    obtain ⟨keys, hy⟩ := hrun.of_error
    simp only [hy, Except.map]

theorem whole_agree (o : DecodeOptions) (text : Bytes) (cache cache' : KeyCache) :
    (whole o (.bytes text) cache).1.map Parsed.value =
      (whole { o with useKeyCache := false } (.bytes text) cache').1.map Parsed.value := by
  simp only [whole, read_useKeyCache]
  cases (Source.bytes text).read o with
  | error e => rfl
  | ok text' =>
    simp only
    cases shortLiteral? text' with
    | some v => rfl
    | none =>
      have h := congrArg (Except.map Prod.fst)
        (run_agree (Reader.agree_document o false) text' text' cache cache')
      simp only
      generalize run text' (Reader.document o) text' cache = r at h ⊢
      generalize run text' (Reader.document _) text' cache' = r' at h ⊢
      obtain ⟨_ | _, _⟩ := r <;> obtain ⟨_ | _, _⟩ := r' <;> exact h

theorem first_agree (o : DecodeOptions) (text : Bytes) (cache cache' : KeyCache) :
    (first o (.bytes text) cache).1.map (fun (p, n) => (p.value, n)) =
      (first { o with useKeyCache := false } (.bytes text) cache').1.map
        fun (p, n) => (p.value, n) := by
  simp only [first, read_useKeyCache]
  cases (Source.bytes text).read o with
  | error e => rfl
  | ok text' =>
    have h := congrArg (Except.map fun (v, rest) => (v, text'.length - rest.length))
      (run_agree (Reader.agree_leadingValue o false) text' text' cache cache')
    simp only
    generalize run text' (Reader.leadingValue o) text' cache = r at h ⊢
    generalize run text' (Reader.leadingValue _) text' cache' = r' at h ⊢
    obtain ⟨_ | _, _⟩ := r <;> obtain ⟨_ | _, _⟩ := r' <;> exact h

theorem keys_of_moves {q : Place} {s : Cursor} (h : Reader.Moves .start q ⟨text, cache⟩ s) :
    s.keys = cache.internAll (keyLiterals (text.take (text.length - s.rest.length))) := by
  obtain ⟨read, hrest, -, hkeys⟩ := h
  simp only at hrest
  have hlen : text.length - s.rest.length = read.length := by
    rw [hrest, List.length_append]
    omega
  rw [hkeys, hlen, hrest, List.take_left]
  rfl

theorem keys_of_error {fault : Fault} {s : Cursor} {α : Type} {x : Reader α} {q : Place}
    (hx : Reader.TakesKeys .start q x) (h : x ⟨text, cache⟩ = .error fault s) :
    s.keys = cache.internAll (keyLiterals
      (readPart text (.error (DecodeError.ofFault text s.rest fault)))) := by
  have hmoves := hx ⟨text, cache⟩
  rw [h] at hmoves
  obtain ⟨r, hmoves⟩ := hmoves
  rw [keys_of_moves hmoves, readPart, DecodeError.ofFault, offset_locate,
    Nat.min_eq_left (Nat.sub_le _ _)]

theorem keys_of_ok {a : Parsed} {s : Cursor} {x : Reader Parsed} {q : Place}
    (hx : Reader.TakesKeys .start q x) (h : x ⟨text, cache⟩ = .ok a s) :
    s.keys = cache.internAll (keyLiterals
      (readPart text (.ok (text.length - s.rest.length)))) := by
  have hmoves := hx ⟨text, cache⟩
  rw [h] at hmoves
  exact keys_of_moves hmoves

theorem keyLiterals_shortLiteral? {v : Value} (h : shortLiteral? text = some v) :
    keyLiterals text = [] := by
  rcases text with _ | ⟨a, _ | ⟨b, _ | ⟨c, more⟩⟩⟩
  · cases h
  · cases h
  · simp only [shortLiteral?, Bool.and_eq_true, decide_eq_true_eq] at h
    split_ifs at h with harray hobject hstring
    · obtain ⟨rfl, rfl⟩ := harray
      decide +kernel
    · obtain ⟨rfl, rfl⟩ := hobject
      decide +kernel
    · obtain ⟨rfl, rfl⟩ := hstring
      decide +kernel
  · cases h

theorem rest_of_document {p : Parsed} {s : Cursor}
    (h : Reader.document o ⟨text, cache⟩ = .ok p s) : s.rest = [] := by
  rw [document_run] at h
  cases hv : Reader.value o .whole o.depthLimit ⟨text, cache⟩ with
  | error fault s' =>
    rw [hv] at h
    cases h
  | ok p' s' =>
    rw [hv] at h
    simp only at h
    split_ifs at h with hnil
    cases h
    exact hnil

theorem whole_keys (ho : o.useKeyCache = true) (hc : o.Checks text) :
    (whole o (.bytes text) cache).2 = cache.internAll (keyLiterals
      (readPart text ((whole o (.bytes text) cache).1.map fun _ => text.length))) := by
  simp only [whole, Source.read_of_checks hc]
  cases hs : shortLiteral? text with
  | some v =>
    simp only [Except.map, readPart, List.take_length, keyLiterals_shortLiteral? hs]
    rfl
  | none =>
    simp only [run]
    cases hrun : Reader.document o ⟨text, cache⟩ with
    | error fault s => exact keys_of_error (Reader.takesKeys_document ho) hrun
    | ok p s =>
      have h := keys_of_ok (Reader.takesKeys_document ho) hrun
      rw [rest_of_document hrun] at h
      exact h

theorem first_keys (ho : o.useKeyCache = true) (hc : o.Checks text) :
    (first o (.bytes text) cache).2 = cache.internAll (keyLiterals
      (readPart text ((first o (.bytes text) cache).1.map Prod.snd))) := by
  have htakes := Reader.takesKeys_value ho .leading o.depthLimit []
  simp only [first, Source.read_of_checks hc, run, Reader.leadingValue]
  cases hrun : Reader.value o .leading o.depthLimit ⟨text, cache⟩ with
  | error fault s => exact keys_of_error htakes hrun
  | ok p s => exact keys_of_ok htakes hrun

theorem caching (o : DecodeOptions) (text : Bytes) (cache cache' : KeyCache) :
    Caching o text cache cache' where
  whole := whole_agree o text cache cache'
  first := first_agree o text cache cache'
  whole_cache ho hc := whole_keys ho hc
  first_cache ho hc := first_keys ho hc
  illFormed hc := by
    simp only [Decode.whole, Decode.first, Source.read_of_not_checks hc]
    exact ⟨trivial, trivial⟩
  keys t ht := by
    obtain ⟨before, after, rfl⟩ := ht.shape
    exact keyLiterals_tree ht.surrogatesPaired before after

end Decode
end JsonCodec
