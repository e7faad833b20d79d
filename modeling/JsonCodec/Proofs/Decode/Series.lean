import Mathlib
import JsonCodec.Proofs.Decode.Conservation
import JsonCodec.Proofs.Decode.Prefix

set_option autoImplicit false

namespace JsonCodec
open Grammar Runs

def DecodeError.behind (text : Bytes) (n : Nat) (e : DecodeError) : DecodeError :=
  ⟨e.fault, locate text (n + e.location.offset)⟩

def Series.behind (text : Bytes) (n : Nat) (s : Series) : Series :=
  { s with error := s.error.map (·.behind text n) }

def Series.push (v : Value) (s : Series) : Series := { s with values := v :: s.values }

theorem DecodeError.behind_ofFault {before base rest : Bytes} (h : rest.length ≤ base.length)
    (fault : Fault) :
    (ofFault base rest fault).behind (before ++ base) before.length =
      ofFault (before ++ base) rest fault := by
  have hplace : before.length + min (base.length - rest.length) base.length =
      (before ++ base).length - rest.length := by
    rw [List.length_append]
    omega
  simp only [behind, ofFault, offset_locate, hplace]

namespace Decode

variable {o : DecodeOptions} {text part rest : Bytes} {cache keys : KeyCache}

theorem run_leadingValue (o : DecodeOptions) (text part : Bytes) (cache : KeyCache) :
    run text (Reader.leadingValue o) (part.dropWhile Byte.isSpace) cache =
      run text (Reader.leadingValue o) part cache := by
  simp only [run, Reader.leadingValue, Reader.skipsBlanks_value o .leading o.depthLimit part cache]

theorem seriesFrom_succ (o : DecodeOptions) (text : Bytes) (fuel : Nat) (part : Bytes)
    (cache : KeyCache) :
    seriesFrom o text (fuel + 1) part cache =
      if part.all Byte.isSpace then ⟨[], none, cache⟩
      else match run text (Reader.leadingValue o) part cache with
        | (.error e, cache) => ⟨[], some e, cache⟩
        | (.ok (parsed, rest), cache) => (seriesFrom o text fuel rest cache).push parsed.value := by
  have hblank : (part.dropWhile Byte.isSpace).isEmpty = part.all Byte.isSpace := by
    rw [Bool.eq_iff_iff, List.isEmpty_iff, List.dropWhile_eq_nil_iff, List.all_eq_true]
  rw [seriesFrom]
  simp only [hblank, run_leadingValue]
  rfl

theorem length_of_leadingValue {parsed : Parsed}
    (h : Reader.leadingValue o ⟨part, cache⟩ = .ok parsed ⟨rest, keys⟩) :
    rest.length < part.length := by
  obtain ⟨before, t, ht, -⟩ := Reader.startsWithTree_of_value o .leading _ _ _ _ _ _ h
  obtain ⟨init, b, hlast, -⟩ := t.exists_closes
  rw [ht, hlast]
  simp only [List.length_append, List.length_singleton]
  omega

theorem length_of_error {fault : Fault} {s : Cursor}
    (h : Reader.leadingValue o ⟨part, cache⟩ = .error fault s) : s.rest.length ≤ part.length := by
  have hc := Reader.conserves_value o .leading o.depthLimit ⟨part, cache⟩ part.length le_rfl
  rw [Reader.leadingValue] at h
  rw [LeavesAt, h] at hc
  exact hc

/-- A series does not end because it has too many values. -/
theorem seriesFrom_fuel (o : DecodeOptions) (text : Bytes) {fuel fuel' : Nat}
    (h : part.length < fuel) (h' : part.length < fuel') (cache : KeyCache) :
    seriesFrom o text fuel part cache = seriesFrom o text fuel' part cache := by
  induction fuel generalizing fuel' part cache with
  | zero => exact absurd h (Nat.not_lt_zero _)
  | succ fuel ih =>
    rcases fuel' with _ | fuel'
    · exact absurd h' (Nat.not_lt_zero _)
    · rw [seriesFrom_succ, seriesFrom_succ, run]
      cases hrun : Reader.leadingValue o ⟨part, cache⟩ with
      | error fault s => rfl
      | ok parsed s =>
        have hlt := @length_of_leadingValue o part s.rest cache s.keys parsed hrun
        simp only [ih (show s.rest.length < fuel by omega) (show s.rest.length < fuel' by omega)]

/-- What stands in front of a series moves its error and nothing else. -/
theorem seriesFrom_behind (o : DecodeOptions) (before base : Bytes) (fuel : Nat)
    (h : part.length ≤ base.length) (cache : KeyCache) :
    seriesFrom o (before ++ base) fuel part cache =
      (seriesFrom o base fuel part cache).behind (before ++ base) before.length := by
  induction fuel generalizing part cache with
  | zero => rfl
  | succ fuel ih =>
    rw [seriesFrom_succ, seriesFrom_succ, run, run]
    split_ifs
    · rfl
    · cases hrun : Reader.leadingValue o ⟨part, cache⟩ with
      | error fault s =>
        have hle := (length_of_error hrun).trans h
        simp only [Series.behind, Option.map_some, DecodeError.behind_ofFault hle]
      | ok parsed s =>
        have hlt := @length_of_leadingValue o part s.rest cache s.keys parsed hrun
        simp only [ih (show s.rest.length ≤ base.length by omega)]
        rfl

theorem series_of_checks (hc : o.Checks text) (cache : KeyCache) :
    series o (.bytes text) cache = seriesFrom o text (text.length + 1) text cache := by
  simp only [series, Source.read_of_checks hc]

/-- Blanks are no series of values, whatever their encoding has to be. -/
theorem checks_blank (o : DecodeOptions) (h : text.all Byte.isSpace = true) : o.Checks text :=
  fun _ => Utf8.wellFormed_ascii fun b hb => isSpace_ascii (List.all_eq_true.1 h b hb)

theorem series_blank (o : DecodeOptions) (h : text.all Byte.isSpace = true) (cache : KeyCache) :
    series o (.bytes text) cache = ⟨[], none, cache⟩ := by
  rw [series_of_checks (checks_blank o h), seriesFrom_succ, if_pos h]

theorem series_error {e : DecodeError} (hb : text.all Byte.isSpace = false)
    (h : first o (.bytes text) cache = (.error e, keys)) :
    series o (.bytes text) cache = ⟨[], some e, keys⟩ := by
  rw [first] at h
  unfold series
  cases hread : (Source.bytes text).read o with
  | error e' =>
    simp only [hread, Prod.mk.injEq, Except.error.injEq] at h
    rw [h.1, h.2]
  | ok text' =>
    obtain ⟨rfl, -⟩ := Source.checks_of_read hread
    simp only [hread] at h
    simp only [seriesFrom_succ, hb, Bool.false_eq_true, ↓reduceIte]
    cases hrun : run text' (Reader.leadingValue o) text' cache with
    | mk result keys' =>
      rw [hrun] at h
      cases result with
      | error e' =>
        simp only [Except.map, Prod.mk.injEq, Except.error.injEq] at h
        rw [h.1, h.2]
      | ok p => simp [Except.map] at h

theorem series_ok {p : Parsed} {n : Nat}
    (h : first o (.bytes text) cache = (.ok (p, n), keys)) :
    series o (.bytes text) cache =
      ((series o (.bytes (text.drop n)) keys).behind text n).push p.value := by
  obtain ⟨hc, rest, hrun, rfl⟩ := first_eq_ok_iff.1 h
  obtain ⟨before, t, ht, -⟩ := Reader.startsWithTree_of_value o .leading _ _ _ _ _ _ hrun
  have hcut := take_drop_cut ht
  have hlt := length_of_leadingValue hrun
  have hrest : o.Checks rest := by
    rw [ht] at hc
    exact (checks_split hc).2
  have hblank : text.all Byte.isSpace = false := by
    obtain ⟨-, -, b, hb, hspace⟩ := cut_bounds ht
    rw [Bool.eq_false_iff]
    intro hall
    rw [List.all_eq_true.1 hall b (List.mem_of_getElem? hb)] at hspace
    cases hspace
  have hbehind := @seriesFrom_behind rest o (before.text ++ t.text) rest text.length le_rfl keys
  rw [← ht, ← hcut.1, List.length_take, Nat.min_eq_left (Nat.sub_le _ _)] at hbehind
  rw [hcut.2, series_of_checks hc, series_of_checks hrest, seriesFrom_succ, hblank,
    if_neg Bool.false_ne_true, run, hrun]
  simp only [hbehind, seriesFrom_fuel o rest hlt (Nat.lt_succ_self _)]

theorem series_illFormed (h : ¬ o.Checks text) (cache : KeyCache) :
    ∃ e, e.code = .invalidUtf8 ∧ series o (.bytes text) cache = ⟨[], some e, cache⟩ := by
  refine ⟨DecodeError.ofFault text (Utf8.illFormed text) .invalidUtf8, rfl, ?_⟩
  simp only [series, Source.read_of_not_checks h]

/-- A series as one gets it from first values alone. -/
inductive Iterates (o : DecodeOptions) : Bytes → KeyCache → Series → Prop
  | blank (text : Bytes) (cache : KeyCache) (h : text.all Byte.isSpace = true) :
    Iterates o text cache ⟨[], none, cache⟩
  | error (text : Bytes) (cache keys : KeyCache) (e : DecodeError)
    (hb : text.all Byte.isSpace = false) (h : first o (.bytes text) cache = (.error e, keys)) :
    Iterates o text cache ⟨[], some e, keys⟩
  | step (text : Bytes) (cache keys : KeyCache) (p : Parsed) (n : Nat) (s : Series)
    (h : first o (.bytes text) cache = (.ok (p, n), keys)) (rest : Iterates o (text.drop n) keys s) :
    Iterates o text cache ((s.behind text n).push p.value)

theorem iterates_series (o : DecodeOptions) (text : Bytes) (cache : KeyCache) :
    Iterates o text cache (series o (.bytes text) cache) := by
  -- The induction is on the length of the text: a first value takes a byte of it.
  induction hn : text.length using Nat.strong_induction_on generalizing text cache with
  | _ length ih =>
    cases hb : text.all Byte.isSpace with
    | true =>
      rw [series_blank o hb]
      exact .blank text cache hb
    | false =>
      cases hfirst : first o (.bytes text) cache with
      | mk result keys =>
        cases result with
        | error e =>
          rw [series_error hb hfirst]
          exact .error text cache keys e hb hfirst
        | ok r =>
          obtain ⟨p, n⟩ := r
          obtain ⟨-, before, t, rest, ht, -, -, -, rfl, -⟩ := first_eq_ok hfirst
          have hbounds := cut_bounds ht
          rw [series_ok hfirst]
          refine .step text cache keys p _ _ hfirst (ih _ ?_ _ keys rfl)
          rw [List.length_drop]
          omega

theorem offset_ofFault (text rest : Bytes) (fault : Fault) :
    (DecodeError.ofFault text rest fault).location.offset ≤ text.length := by
  simp only [DecodeError.ofFault, offset_locate]
  exact Nat.min_le_right _ _

theorem offset_first {e : DecodeError} (h : first o (.bytes text) cache = (.error e, keys)) :
    e.location.offset ≤ text.length := by
  by_cases hc : o.Checks text
  · simp only [first, Source.read_of_checks hc, run] at h
    cases hrun : Reader.leadingValue o ⟨text, cache⟩ with
    | error fault s =>
      simp only [hrun, Except.map, Prod.mk.injEq, Except.error.injEq] at h
      rw [← h.1]
      exact offset_ofFault text s.rest fault
    | ok parsed s => simp [hrun, Except.map] at h
  · rw [first, Source.read_of_not_checks hc] at h
    simp only [Prod.mk.injEq, Except.error.injEq] at h
    rw [← h.1]
    exact offset_ofFault text _ _

theorem Iterates.offset {s : Series} (h : Iterates o text cache s) {e : DecodeError}
    (he : s.error = some e) : e.location.offset ≤ text.length := by
  cases h with
  | blank text cache h => cases he
  | error text cache keys e' hb h =>
    obtain rfl := Option.some.inj he
    exact offset_first h
  | step text cache keys p n s h rest =>
    obtain ⟨e', -, rfl⟩ := Option.map_eq_some_iff.1 he
    simp only [DecodeError.behind, offset_locate]
    exact Nat.min_le_right _ _

theorem Iterates.eq_series {s : Series} (h : Iterates o text cache s) :
    s = series o (.bytes text) cache := by
  induction h with
  | blank text cache h => rw [series_blank o h]
  | error text cache keys e hb h => rw [series_error hb h]
  | step text cache keys p n s h _ ih => rw [series_ok h, ih]

/-- Decoding a series and decoding first values agree. -/
structure SeriesAgreement (o : DecodeOptions) (text : Bytes) (cache : KeyCache) : Prop where
  blank : text.all Byte.isSpace = true → series o (.bytes text) cache = ⟨[], none, cache⟩
  error : ∀ e keys, text.all Byte.isSpace = false →
    first o (.bytes text) cache = (.error e, keys) →
    series o (.bytes text) cache = ⟨[], some e, keys⟩
  step : ∀ p n keys, first o (.bytes text) cache = (.ok (p, n), keys) →
    1 ≤ n ∧ n ≤ text.length ∧ series o (.bytes text) cache =
      ((series o (.bytes (text.drop n)) keys).behind text n).push p.value
  offset : ∀ p n keys, first o (.bytes text) cache = (.ok (p, n), keys) →
    ∀ e, (series o (.bytes (text.drop n)) keys).error = some e →
      (e.behind text n).location.offset = n + e.location.offset
  iterates : ∀ s, Iterates o text cache s ↔ s = series o (.bytes text) cache
  illFormed : o.validateUtf8 = true → ¬ Utf8.WellFormed text →
    ∃ e, e.code = .invalidUtf8 ∧ series o (.bytes text) cache = ⟨[], some e, cache⟩

theorem seriesAgreement (o : DecodeOptions) (text : Bytes) (cache : KeyCache) :
    SeriesAgreement o text cache where
  blank h := series_blank o h cache
  error e keys hb h := series_error hb h
  step p n keys h := by
    obtain ⟨-, before, t, rest, ht, -, -, -, rfl, -⟩ := first_eq_ok h
    have hbounds := cut_bounds ht
    exact ⟨hbounds.1, hbounds.2.1, series_ok h⟩
  offset p n keys h e he := by
    obtain ⟨-, before, t, rest, ht, -, -, -, rfl, -⟩ := first_eq_ok h
    have hbounds := cut_bounds ht
    have hle := (iterates_series o _ keys).offset he
    rw [List.length_drop] at hle
    simp only [DecodeError.behind, offset_locate]
    omega
  iterates s := by
    constructor
    · exact Iterates.eq_series
    · rintro rfl
      exact iterates_series o text cache
  illFormed hv hw := series_illFormed (fun hc => hw (hc hv)) cache

end Decode
end JsonCodec
