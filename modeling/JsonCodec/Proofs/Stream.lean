import Mathlib
import JsonCodec.Proofs.Decode.Series
import JsonCodec.Proofs.RoundTrip

set_option autoImplicit false

/-!
# Streams of encoded values

Values that were encoded one by one, with blanks between their texts, are found again as a series.
Nothing but the blanks tells where a text ends: a number would go on with the digits of the next.
-/
namespace JsonCodec
open Grammar

/-- A value in a stream, with the blanks in front of it. It can be encoded in the dialect of the
decoder, which takes values that are as deep. -/
structure StreamEntry (d : DecodeOptions) where
  before : Blanks
  value : Value
  options : EncodeOptions
  dialect : options.dialect = d.dialect
  encoded : ∃ text, value.encode options = .ok text
  depth : value.depth ≤ d.depthLimit
  wellFormed : d.validateUtf8 = true → value.TextsWellFormed

namespace StreamEntry

variable {d : DecodeOptions}

def text (e : StreamEntry d) : Bytes := Encode.textOrEmpty (e.value.encode e.options)

def bare (e : StreamEntry d) : Bytes :=
  Encode.textOrEmpty (e.value.encode { e.options with newline := false })

def join : List (StreamEntry d) → Blanks → Bytes
  | [], after => after.text
  | e :: rest, after => e.before.text ++ e.text ++ join rest after

def stops (pos : Nat) : List (StreamEntry d) → List Nat
  | [] => []
  | e :: rest =>
    (pos + e.before.text.length + e.bare.length) ::
      stops (pos + e.before.text.length + e.text.length) rest

def DecodedTo (e : StreamEntry d) (v : Value) : Prop :=
  ∀ cache, ∃ p keys, Decode.whole d (.bytes e.text) cache = (.ok p, keys) ∧ p.value = v

end StreamEntry

namespace Decode

/-- First values are decoded, each from what the one in front of it has left of a text, until only
blanks are left. Their ends are counted from where the walk began. -/
inductive Walks (d : DecodeOptions) : Nat → Bytes → KeyCache → List (Value × Nat) → Prop
  | done (pos : Nat) (text : Bytes) (cache : KeyCache) (h : text.all Byte.isSpace = true) :
    Walks d pos text cache []
  | next (pos : Nat) (text : Bytes) (cache keys : KeyCache) (p : Parsed) (n : Nat)
    (stops : List (Value × Nat)) (h : first d (.bytes text) cache = (.ok (p, n), keys))
    (rest : Walks d (pos + n) (text.drop n) keys stops) :
    Walks d pos text cache ((p.value, pos + n) :: stops)

/-- Decoding a stream gives back what its values are decoded to one by one. -/
structure StreamAgreement (d : DecodeOptions) (entries : List (StreamEntry d)) (after : Blanks)
    (cache : KeyCache) (values : List Value) : Prop where
  each : List.Forall₂ StreamEntry.DecodedTo entries values
  count : values.length = entries.length
  series : ∃ keys, series d (.bytes (StreamEntry.join entries after)) cache = ⟨values, none, keys⟩
  walk : Walks d 0 (StreamEntry.join entries after) cache (values.zip (StreamEntry.stops 0 entries))

end Decode

theorem Grammar.Token.Readable.of_none {d : DecodeOptions} {k : Token}
    (h : k.Readable { d with bigInteger := none }) : k.Readable d := by
  cases k with
  | word w => exact h
  | numeral n => exact Value.isSome_ofNumeral?_of_none d.bigInteger h
  | string ps => exact h

namespace StreamEntry

variable {d : DecodeOptions}

structure Spelled (e : StreamEntry d) (t : Tree) : Prop where
  bare : e.bare = t.text
  text : e.text = t.text ++ (Value.lineEnd e.options).text
  depth : t.depth ≤ d.depthLimit
  readable : ∀ k ∈ t.tokens, k.Readable d
  checks : d.Checks t.text

theorem exists_spelled (e : StreamEntry d) : ∃ t, Spelled e t := by
  obtain ⟨text, htext⟩ := e.encoded
  obtain ⟨t, hsplit, hbare, hshows⟩ := Value.exists_tree htext
  obtain ⟨hdepth, hwellFormed, -⟩ := hshows.unsorted
  refine ⟨t, ?_, ?_, hdepth.trans_le e.depth, fun k hk => .of_none ?_,
    fun hv => hwellFormed.2 (e.wellFormed hv)⟩
  · rw [bare, hbare, Encode.textOrEmpty]
  · rw [StreamEntry.text, htext, Encode.textOrEmpty, hsplit]
  · exact hshows.readable { d with bigInteger := none } e.dialect.symm rfl k hk

theorem checks_append {a b : Bytes} (ha : d.Checks a) (hb : d.Checks b) : d.Checks (a ++ b) :=
  fun hv => (ha hv).append (hb hv)

theorem checks_blanks (blanks : Blanks) : d.Checks blanks.text :=
  fun _ => Value.wellFormed_blanks blanks

theorem checks_join (entries : List (StreamEntry d)) (after : Blanks) :
    d.Checks (join entries after) := by
  induction entries with
  | nil => exact checks_blanks after
  | cons e rest ih =>
    obtain ⟨t, ht⟩ := e.exists_spelled
    rw [join, ht.text]
    exact checks_append (checks_append (checks_blanks _)
      (checks_append ht.checks (checks_blanks _))) ih

theorem stops_join {entries : List (StreamEntry d)} (h : ∀ e ∈ entries, e.before.text ≠ [])
    (after : Blanks) : Stops (join entries after) := by
  cases entries with
  | nil => simpa [join] using stops_blanks after stops_nil
  | cons e rest =>
    cases hb : e.before.text with
    | nil => exact absurd hb (h e List.mem_cons_self)
    | cons b more =>
      rw [join, hb]
      exact stops_space (e.before.isSpace b (by simp [hb])) _

end StreamEntry

namespace Grammar.Blanks

def append (a b : Blanks) : Blanks where
  text := a.text ++ b.text
  isSpace := by
    simp only [List.mem_append]
    rintro x (hx | hx)
    · exact a.isSpace x hx
    · exact b.isSpace x hx

end Grammar.Blanks

namespace Decode

open StreamEntry (join stops)

variable {d : DecodeOptions}

theorem join_cons {e : StreamEntry d} {t : Tree} (h : e.Spelled t) (lead : Bytes)
    (rest : List (StreamEntry d)) (after : Blanks) :
    lead ++ join (e :: rest) after =
      (lead ++ e.before.text ++ e.bare) ++
        ((Value.lineEnd e.options).text ++ join rest after) := by
  simp [join, h.text, h.bare]

theorem decodedTo_tree {e : StreamEntry d} {t : Tree} (h : e.Spelled t) :
    e.DecodedTo (t.value (Token.value d.bigInteger)) := by
  intro cache
  refine @whole_tree d e.text t ?_ Blanks.none (Value.lineEnd e.options)
    (by rw [h.text, Value.text_none, List.nil_append]) h.depth h.readable cache
  rw [h.text]
  exact StreamEntry.checks_append h.checks (StreamEntry.checks_blanks _)

/-- The first value behind some blanks ends with its bare text, and is what its own text is decoded
to. -/
theorem first_entry {e : StreamEntry d} {t : Tree} (h : e.Spelled t) (lead : Blanks)
    {rest : List (StreamEntry d)} (hrest : ∀ e ∈ rest, e.before.text ≠ []) (after : Blanks)
    (cache : KeyCache) :
    ∃ p keys, first d (.bytes (lead.text ++ join (e :: rest) after)) cache =
        (.ok (p, (lead.text ++ e.before.text ++ e.bare).length), keys) ∧
      e.DecodedTo p.value := by
  have htext := join_cons h lead.text rest after
  rw [h.bare] at htext
  have hchecks : d.Checks (lead.text ++ join (e :: rest) after) :=
    StreamEntry.checks_append (StreamEntry.checks_blanks lead) (StreamEntry.checks_join _ after)
  have hends := (stops_blanks (Value.lineEnd e.options)
    (StreamEntry.stops_join hrest after)).tree .leading t
  obtain ⟨p, keys, hfirst, hvalue⟩ :=
    @first_tree d _ t hchecks (lead.append e.before) _ htext h.depth h.readable hends cache
  refine ⟨p, keys, ?_, hvalue ▸ decodedTo_tree h⟩
  rw [hfirst, h.bare, htext, List.length_append, Nat.add_sub_cancel]

/-- The same behind some blanks, at any position of a longer walk. The induction is on the entries:
the line feed of an entry is among the blanks in front of the next. -/
theorem exists_values (entries : List (StreamEntry d))
    (hseparated : ∀ e ∈ entries.tail, e.before.text ≠ []) (after lead : Blanks) (pos : Nat)
    (cache : KeyCache) :
    ∃ values keys, List.Forall₂ StreamEntry.DecodedTo entries values ∧
      series d (.bytes (lead.text ++ join entries after)) cache = ⟨values, none, keys⟩ ∧
      Walks d pos (lead.text ++ join entries after) cache
        (values.zip (stops (pos + lead.text.length) entries)) := by
  induction entries generalizing lead pos cache with
  | nil =>
    have hblank : (lead.text ++ after.text).all Byte.isSpace = true := by
      rw [List.all_append, List.all_eq_true.2 lead.isSpace, List.all_eq_true.2 after.isSpace]
      rfl
    exact ⟨[], cache, .nil, series_blank d hblank cache, .done pos _ cache hblank⟩
  | cons e rest ih =>
    rw [List.tail_cons] at hseparated
    obtain ⟨t, ht⟩ := e.exists_spelled
    obtain ⟨p, keys, hfirst, hvalue⟩ := first_entry ht lead hseparated after cache
    have hdrop : (lead.text ++ join (e :: rest) after).drop
        (lead.text ++ e.before.text ++ e.bare).length =
        (Value.lineEnd e.options).text ++ join rest after := by
      rw [join_cons ht, List.drop_left]
    obtain ⟨values, keys', heach, hseries, hwalk⟩ :=
      ih (fun e he => hseparated e (List.mem_of_mem_tail he)) (Value.lineEnd e.options)
        (pos + (lead.text ++ e.before.text ++ e.bare).length) keys
    have hlength : e.text.length = e.bare.length + (Value.lineEnd e.options).text.length := by
      rw [ht.text, ht.bare, List.length_append]
    have hend : pos + (lead.text ++ e.before.text ++ e.bare).length =
        pos + lead.text.length + e.before.text.length + e.bare.length := by
      simp only [List.length_append]
      omega
    refine ⟨p.value :: values, keys', .cons hvalue heach, ?_, ?_⟩
    · rw [series_ok hfirst, hdrop, hseries]
      rfl
    · rw [hend, Nat.add_assoc _ e.bare.length, ← hlength] at hwalk
      rw [stops, List.zip_cons_cons, ← hend]
      refine .next pos _ cache keys p _ _ hfirst ?_
      rwa [hdrop, hend]

theorem streamAgreement (entries : List (StreamEntry d))
    (hseparated : ∀ e ∈ entries.tail, e.before.text ≠ []) (after : Blanks) (cache : KeyCache) :
    ∃ values, StreamAgreement d entries after cache values := by
  obtain ⟨values, keys, heach, hseries, hwalk⟩ :=
    exists_values entries hseparated after Blanks.none 0 cache
  exact ⟨values, heach, heach.length_eq.symm, ⟨keys, hseries⟩, hwalk⟩

def twoNumbers : List (StreamEntry {}) :=
  [{ before := Blanks.none
     value := .int64 12
     options := { newline := true }
     dialect := rfl
     encoded := ⟨Bytes.ascii "12\n", by decide +kernel⟩
     depth := by decide +kernel
     wellFormed := fun _ => trivial },
   { before := ⟨[Byte.tab], by decide +kernel⟩
     value := .float (.zero true)
     options := {}
     dialect := rfl
     encoded := ⟨Bytes.ascii "-0.0", by decide +kernel⟩
     depth := by decide +kernel
     wellFormed := fun _ => trivial }]

theorem streamAgreement_twoNumbers :
    (∀ e ∈ twoNumbers.tail, e.before.text ≠ []) ∧
      ∃ values, StreamAgreement {} twoNumbers Blanks.none KeyCache.empty values :=
  have hseparated : ∀ e ∈ twoNumbers.tail, e.before.text ≠ [] := by
    simp [twoNumbers]
  ⟨hseparated, streamAgreement twoNumbers hseparated Blanks.none KeyCache.empty⟩

end Decode
end JsonCodec
