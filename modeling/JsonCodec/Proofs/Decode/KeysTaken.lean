import Mathlib
import JsonCodec.Proofs.Decode.Document
import JsonCodec.Proofs.Decode.Passage

set_option autoImplicit false

/-!
# The keys that a reader takes

A reader takes from the cache exactly the keys that are complete in the bytes it has gone over, in
their order, whether it ends with a value or with a fault.
-/
namespace JsonCodec

def KeyCache.internAll (cache : KeyCache) (keys : List Bytes) : KeyCache :=
  keys.foldl (fun cache key => (cache.intern key).2) cache

theorem KeyCache.internAll_append (cache : KeyCache) (a b : List Bytes) :
    cache.internAll (a ++ b) = (cache.internAll a).internAll b := List.foldl_append

namespace Reader
open Grammar Runs

variable {α β : Type} {p q r : Place} {s s' s'' : Cursor} {nest : List Container} {atKey : Bool}

def Moves (p q : Place) (s s' : Cursor) : Prop :=
  ∃ read, s.rest = read ++ s'.rest ∧ p.after read = q ∧ s'.keys = s.keys.internAll (p.keys read)

theorem Moves.refl (p : Place) (s : Cursor) : Moves p p s s := ⟨[], rfl, rfl, rfl⟩

theorem Moves.trans (h : Moves p q s s') (h' : Moves q r s' s'') : Moves p r s s'' := by
  obtain ⟨read, hrest, rfl, hkeys⟩ := h
  obtain ⟨read', hrest', rfl, hkeys'⟩ := h'
  refine ⟨read ++ read', ?_, Place.after_append p read read', ?_⟩
  · rw [hrest, hrest', List.append_assoc]
  · rw [hkeys', hkeys, Place.keys_append, KeyCache.internAll_append]

theorem moves_reached {text rest : Bytes} (h : Reached text rest) (keys : KeyCache) :
    Moves (.outside nest atKey) (.outside nest atKey) ⟨text, keys⟩ ⟨rest, keys⟩ := by
  obtain ⟨read, rfl, hread⟩ := h
  obtain ⟨hafter, hkeys⟩ := Place.neutral nest atKey hread
  exact ⟨read, rfl, hafter, by rw [hkeys]; rfl⟩

theorem moves_byte {b : UInt8} (hp : p.completed b = []) (rest : Bytes) (keys : KeyCache) :
    Moves p (p.next b) ⟨b :: rest, keys⟩ ⟨rest, keys⟩ :=
  ⟨[b], rfl, rfl, by simp only [Place.keys, hp]; rfl⟩

/-- A run from one place ends at another if it succeeds, and somewhere in any case; it has asked for
the keys on the way. -/
def TakesKeysAt (p q : Place) (s : Cursor) : EStateM.Result Fault Cursor α → Prop
  | .ok _ s' => Moves p q s s'
  | .error _ s' => ∃ r, Moves p r s s'

def TakesKeys (p q : Place) (x : Reader α) : Prop := ∀ s, TakesKeysAt p q s (x s)

theorem Moves.takesKeysAt (h : Moves p q s s') {result : EStateM.Result Fault Cursor α}
    (h' : TakesKeysAt q r s' result) : TakesKeysAt p r s result := by
  cases result with
  | ok a s'' => exact h.trans h'
  | error fault s'' => exact h'.imp fun _ h' => h.trans h'

theorem TakesKeysAt.bind {x : Reader α} {f : α → Reader β} (h : TakesKeysAt p q s (x s))
    (hf : ∀ a s', x s = .ok a s' → TakesKeysAt q r s' (f a s')) :
    TakesKeysAt p r s ((x >>= f) s) := by
  rw [bind_run]
  cases hx : x s with
  | ok a s' =>
    rw [hx] at h
    exact Moves.takesKeysAt h (hf a s' hx)
  | error fault s' =>
    rw [hx] at h
    exact h

theorem TakesKeysAt.ite {c : Prop} [Decidable c] {x y : Reader α}
    (hx : c → TakesKeysAt p q s (x s)) (hy : ¬ c → TakesKeysAt p q s (y s)) :
    TakesKeysAt p q s ((if c then x else y) s) := by
  split_ifs with h
  · exact hx h
  · exact hy h

theorem takesKeysAt_pure (a : α) : TakesKeysAt p p s ((pure a : Reader α) s) := Moves.refl p s

theorem takesKeysAt_throw (fault : Fault) : TakesKeysAt p q s ((throw fault : Reader α) s) :=
  ⟨p, Moves.refl p s⟩

theorem takesKeys_scan {x : Scanner α} (h : SeesNoStructure x) :
    TakesKeys (.outside nest atKey) (.outside nest atKey) (scan x) := by
  intro s
  have hs := h s.rest
  rw [scan_run]
  cases hx : x s.rest with
  | ok a rest =>
    rw [hx] at hs
    exact moves_reached hs s.keys
  | error fault rest =>
    rw [hx] at hs
    exact ⟨_, moves_reached hs s.keys⟩

theorem seesNoStructure_peek : SeesNoStructure (do
    Scanner.skipSpace
    match ← get with
    | [] => throw .unexpectedEnd
    | b :: _ => return b : Scanner UInt8) :=
  .bind Scanner.seesNoStructure_skipSpace fun _ text => by
    rcases text with _ | ⟨b, rest⟩
    · exact .refl []
    · exact .refl _

theorem takesKeysAt_peek {f : UInt8 → Reader α}
    (h : ∀ b rest, TakesKeysAt (.outside nest atKey) q ⟨b :: rest, s.keys⟩
      (f b ⟨b :: rest, s.keys⟩)) :
    TakesKeysAt (.outside nest atKey) q s ((peek >>= f) s) := by
  refine .bind (takesKeys_scan seesNoStructure_peek s) fun b s' hp => ?_
  obtain ⟨-, rest, -, -, rfl⟩ := peek_eq_ok hp
  exact h b rest

theorem takesKeysAt_skip {b : UInt8} (hp : p.completed b = []) {rest : Bytes} {keys : KeyCache}
    {f : Unit → Reader α} (h : TakesKeysAt (p.next b) q ⟨rest, keys⟩ (f ⟨⟩ ⟨rest, keys⟩)) :
    TakesKeysAt p q ⟨b :: rest, keys⟩ ((skip >>= f) ⟨b :: rest, keys⟩) :=
  Moves.takesKeysAt (moves_byte hp rest keys) h

theorem takesKeysAt_content {text : Bytes} {keys : KeyCache} :
    TakesKeysAt (.literal nest false [] false) (.outside nest false) ⟨text, keys⟩
      (scan StringLiteral.content ⟨text, keys⟩) := by
  rw [scan_run]
  cases hc : StringLiteral.content text with
  | ok bytes rest =>
    obtain ⟨ps, hp, rfl, -⟩ := StringLiteral.content_eq_ok hc
    obtain ⟨hafter, hkeys⟩ := Place.literal_join nest hp false
    exact ⟨Piece.join ps ++ [Byte.quote], by simp, hafter, by rw [hkeys]; rfl⟩
  | error fault rest =>
    obtain ⟨read, e, rfl, hopen⟩ := StringLiteral.content_eq_error hc
    exact ⟨_, read, rfl, rfl, by rw [(hopen nest false []).2.1]; rfl⟩

/-- A key is asked for as soon as its literal is complete, and only then. -/
theorem takesKeysAt_key {o : DecodeOptions} (ho : o.useKeyCache = true) {text : Bytes}
    {keys : KeyCache} {f : Key → Reader α}
    (h : ∀ k s, TakesKeysAt (.outside nest false) q s (f k s)) :
    TakesKeysAt (.literal nest true [] false) q ⟨text, keys⟩
      ((do f (← key o (← scan StringLiteral.content))) ⟨text, keys⟩) := by
  rw [bind_run, scan_run]
  cases hc : StringLiteral.content text with
  | ok bytes rest =>
    obtain ⟨ps, hp, rfl, rfl⟩ := StringLiteral.content_eq_ok hc
    obtain ⟨hafter, hkeys⟩ := Place.literal_join nest hp true
    have hmoves : Moves (.literal nest true [] false) (.outside nest false)
        ⟨Piece.join ps ++ Byte.quote :: rest, keys⟩
        ⟨rest, (keys.intern (Piece.spelled none ps)).2⟩ :=
      ⟨Piece.join ps ++ [Byte.quote], by simp, hafter, by rw [hkeys]; rfl⟩
    have hkey : key o (Piece.spelled none ps) ⟨rest, keys⟩ =
        .ok (keys.intern (Piece.spelled none ps)).1
          ⟨rest, (keys.intern (Piece.spelled none ps)).2⟩ := by
      simp only [key, modifyGet_run, ho, ↓reduceIte]
    simp only [bind_run, hkey]
    exact hmoves.takesKeysAt (h _ _)
  | error fault rest =>
    obtain ⟨read, e, rfl, hopen⟩ := StringLiteral.content_eq_error hc
    exact ⟨_, read, rfl, rfl, by rw [(hopen nest true []).2.1]; rfl⟩

theorem takesKeysAt_close (c : Container) {rest : Bytes} {keys : KeyCache} {a : α} :
    TakesKeysAt (.outside (c :: nest) atKey) (.outside nest false) ⟨c.close :: rest, keys⟩
      ((do skip; return a : Reader α) ⟨c.close :: rest, keys⟩) := by
  apply takesKeysAt_skip rfl
  rw [Place.next_close]
  exact takesKeysAt_pure a

theorem takesKeys_items (c : Container) {item : Reader α}
    (h : TakesKeys (.outside (c :: nest) (c == .object)) (.outside (c :: nest) false) item)
    (fuel : Nat) :
    TakesKeys (.outside (c :: nest) (c == .object)) (.outside nest false)
      (items c item fuel) := by
  induction fuel with
  | zero => exact fun _ => takesKeysAt_throw _
  | succ fuel ih =>
    intro s
    refine .bind (h s) fun a s' _ => takesKeysAt_peek fun b rest => .ite (fun hb => ?_) fun _ =>
      .ite (fun hb => ?_) fun _ => takesKeysAt_throw _
    · subst hb
      apply takesKeysAt_skip rfl
      rw [Place.next_comma]
      exact .bind (ih _) fun _ _ _ => takesKeysAt_pure _
    · subst hb
      exact takesKeysAt_close c

theorem takesKeys_content (c : Container) {item : Reader α}
    (h : TakesKeys (.outside (c :: nest) (c == .object)) (.outside (c :: nest) false) item) :
    TakesKeys (.outside (c :: nest) (c == .object)) (.outside nest false) (content c item) := by
  intro s
  refine takesKeysAt_peek fun b rest => .ite (fun hb => ?_) fun _ => takesKeys_items c h _ _
  subst hb
  exact takesKeysAt_close c

theorem takesKeys_member {o : DecodeOptions} (ho : o.useKeyCache = true) {value : Reader Parsed}
    (h : TakesKeys (.outside nest false) (.outside nest false) value) :
    TakesKeys (.outside nest true) (.outside nest false) (member o value) := by
  intro s
  refine takesKeysAt_peek fun b rest => .ite (fun _ => takesKeysAt_throw _) fun hb => ?_
  obtain rfl : b = Byte.quote := not_not.1 hb
  refine takesKeysAt_skip rfl (takesKeysAt_key ho fun k s => ?_)
  refine .bind (takesKeys_scan (.bind Scanner.seesNoStructure_skipSpace fun _ =>
    Scanner.seesNoStructure_colon) s) fun _ s' _ => ?_
  exact .bind (h s') fun _ _ _ => takesKeysAt_pure _

theorem takesKeys_named {spelling : Bytes} (v : Value)
    (h : ∀ b ∈ spelling, Place.isStructural b = false) :
    TakesKeys (.outside nest atKey) (.outside nest atKey) (named spelling v) :=
  fun s => .bind (takesKeys_scan (Scanner.seesNoStructure_word h) s) fun _ _ _ =>
    takesKeysAt_pure _

theorem takesKeysAt_dispatch (o : DecodeOptions) (extent : Extent)
    {inside : Container → Reader Parsed}
    (h : ∀ c, TakesKeys (.outside (c :: nest) (c == .object)) (.outside nest false) (inside c))
    (b : UInt8) (rest : Bytes) (keys : KeyCache) :
    TakesKeysAt (.outside nest false) (.outside nest false) ⟨b :: rest, keys⟩
      (dispatch o extent inside b ⟨b :: rest, keys⟩) := by
  refine .ite (fun hb => ?_) fun _ => .ite (fun hb => ?_) fun _ => .ite (fun hb => ?_) fun _ =>
    .ite (fun _ => takesKeys_named _ (by decide +kernel) _) fun _ =>
    .ite (fun _ => takesKeys_named _ (by decide +kernel) _) fun _ =>
    .ite (fun _ => takesKeys_named _ (by decide +kernel) _) fun _ =>
    .ite (fun _ => ?_) fun _ =>
    .ite (fun _ => takesKeys_named _ (by decide +kernel) _) fun _ =>
    .ite (fun _ => takesKeys_named _ NumberLiteral.isStructural_infinityWord _) fun _ =>
    takesKeysAt_throw _
  · subst hb
    exact takesKeysAt_skip rfl (.bind takesKeysAt_content fun _ _ _ => takesKeysAt_pure _)
  · subst hb
    exact takesKeysAt_skip rfl (h .object _)
  · subst hb
    exact takesKeysAt_skip rfl (h .array _)
  · exact .bind (takesKeys_scan (NumberLiteral.seesNoStructure_value o extent) _) fun _ _ _ =>
      takesKeysAt_pure _

theorem takesKeys_value {o : DecodeOptions} (ho : o.useKeyCache = true) (extent : Extent)
    (levels : Nat) (nest : List Container) :
    TakesKeys (.outside nest false) (.outside nest false) (value o extent levels) := by
  induction levels generalizing nest with
  | zero =>
    intro s
    rw [value_eq]
    exact takesKeysAt_peek fun b rest =>
      takesKeysAt_dispatch o extent (fun _ _ => takesKeysAt_throw _) b rest s.keys
  | succ levels ih =>
    intro s
    rw [value_eq]
    refine takesKeysAt_peek fun b rest =>
      takesKeysAt_dispatch o extent (fun c s => ?_) b rest s.keys
    cases c with
    | array =>
      exact .bind (takesKeys_content .array (ih (.array :: nest)) s) fun _ _ _ =>
        takesKeysAt_pure _
    | object =>
      exact .bind (takesKeys_content .object (takesKeys_member ho (ih (.object :: nest))) s)
        fun _ _ _ => takesKeysAt_pure _

theorem takesKeys_document {o : DecodeOptions} (ho : o.useKeyCache = true) :
    TakesKeys .start .start (document o) := fun s =>
  .bind (takesKeys_value ho .whole o.depthLimit [] s) fun _ s' _ =>
    .bind (takesKeys_scan Scanner.seesNoStructure_skipSpace s') fun _ _ _ =>
      TakesKeysAt.ite (fun _ => takesKeysAt_throw _) fun _ => takesKeysAt_pure _

end Reader
end JsonCodec
