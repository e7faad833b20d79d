import Mathlib
import JsonCodec.Proofs.Decode.Tree

set_option autoImplicit false

/-!
# What keys are taken from

Two readers that differ only in where they take their keys from, and in what the caches hold, read
the same: the same values or the same fault, at the same place.
-/
namespace JsonCodec.Reader
open Runs

variable {α β γ δ : Type}

inductive Alike (r : α → β → Prop) :
    EStateM.Result Fault Cursor α → EStateM.Result Fault Cursor β → Prop
  | ok {a : α} {b : β} (h : r a b) (rest : Bytes) (keys keys' : KeyCache) :
    Alike r (.ok a ⟨rest, keys⟩) (.ok b ⟨rest, keys'⟩)
  | error (fault : Fault) (rest : Bytes) (keys keys' : KeyCache) :
    Alike r (.error fault ⟨rest, keys⟩) (.error fault ⟨rest, keys'⟩)

namespace Alike

variable {r : α → β → Prop} {s : Cursor} {result : EStateM.Result Fault Cursor β}

theorem of_ok {a : α} (h : Alike r (.ok a s) result) :
    ∃ b keys, result = .ok b ⟨s.rest, keys⟩ ∧ r a b := by
  cases h with
  | ok h rest keys keys' => exact ⟨_, keys', rfl, h⟩

theorem of_error {fault : Fault} (h : Alike r (.error fault s) result) :
    ∃ keys, result = .error fault ⟨s.rest, keys⟩ := by
  cases h with
  | error fault rest keys keys' => exact ⟨keys', rfl⟩

end Alike

/-- Whatever the caches hold, two readers run alike on the same text. -/
def Agree (r : α → β → Prop) (x : Reader α) (y : Reader β) : Prop :=
  ∀ text keys keys', Alike r (x ⟨text, keys⟩) (y ⟨text, keys'⟩)

namespace Agree

variable {r : α → β → Prop} {q : γ → δ → Prop}

theorem pure {a : α} {b : β} (h : r a b) : Agree r (pure a) (pure b) :=
  fun text keys keys' => .ok h text keys keys'

theorem throw (fault : Fault) : Agree r (throw fault) (throw fault) :=
  fun text keys keys' => .error fault text keys keys'

theorem bind {x : Reader α} {y : Reader β} {f : α → Reader γ} {g : β → Reader δ}
    (h : Agree r x y) (hf : ∀ a b, r a b → Agree q (f a) (g b)) : Agree q (x >>= f) (y >>= g) := by
  intro text keys keys'
  have hrun := h text keys keys'
  rw [bind_run, bind_run]
  cases hx : x ⟨text, keys⟩ with
  | ok a s =>
    rw [hx] at hrun
    obtain ⟨b, keys₁, hy, hab⟩ := hrun.of_ok
    rw [hy]
    exact hf a b hab s.rest s.keys keys₁
  | error fault s =>
    rw [hx] at hrun
    obtain ⟨keys₁, hy⟩ := hrun.of_error
    rw [hy]
    exact .error fault s.rest s.keys keys₁

theorem ite {c : Prop} [Decidable c] {x x' : Reader α} {y y' : Reader β} (h : Agree r x y)
    (h' : Agree r x' y') : Agree r (if c then x else x') (if c then y else y') := by
  split_ifs
  · exact h
  · exact h'

end Agree

theorem agree_scan (s : Scanner α) : Agree Eq (scan s) (scan s) := by
  intro text keys keys'
  rw [scan_run, scan_run]
  cases s text with
  | ok a rest => exact .ok rfl rest keys keys'
  | error fault rest => exact .error fault rest keys keys'

theorem agree_peek : Agree Eq peek peek := agree_scan _

theorem agree_skip : Agree Eq skip skip := agree_scan _

theorem agree_key (o o' : DecodeOptions) (bytes : Bytes) :
    Agree (fun k k' : Key => k.bytes = k'.bytes) (key o bytes) (key o' bytes) := by
  intro text keys keys'
  obtain ⟨k, keys₁, hk, hbytes⟩ := key_run o bytes text keys
  obtain ⟨k', keys₁', hk', hbytes'⟩ := key_run o' bytes text keys'
  rw [hk, hk']
  exact .ok (a := k) (b := k') (hbytes.trans hbytes'.symm) text keys₁ keys₁'

theorem agree_items (c : Container) {r : α → β → Prop} {item : Reader α} {item' : Reader β}
    (h : Agree r item item') (fuel : Nat) :
    Agree (List.Forall₂ r) (items c item fuel) (items c item' fuel) := by
  induction fuel with
  | zero => exact .throw _
  | succ fuel ih =>
    refine .bind h fun a b hab => .bind agree_peek fun b₁ b₂ hb => ?_
    subst hb
    exact .ite
      (.bind agree_skip fun _ _ _ => .bind ih fun as bs has => .pure (.cons hab has))
      (.ite (.bind agree_skip fun _ _ _ => .pure (.cons hab .nil)) (.throw _))

theorem agree_content (c : Container) {r : α → β → Prop} {item : Reader α} {item' : Reader β}
    (h : Agree r item item') :
    Agree (List.Forall₂ r) (content c item) (content c item') := by
  refine .bind agree_peek fun b₁ b₂ hb => ?_
  subst hb
  exact .ite (.bind agree_skip fun _ _ _ => .pure .nil)
    fun text keys keys' => agree_items c h (text.length + 1) text keys keys'

structure SameParsed (p p' : Parsed) : Prop where
  value : p.value = p'.value
  keys : p.keys.map (·.map Key.bytes) = p'.keys.map (·.map Key.bytes)

theorem map_eq_map_of_forall₂ {f : α → γ} {g : β → γ} {as : List α} {bs : List β}
    (h : List.Forall₂ (fun a b => f a = g b) as bs) : as.map f = bs.map g := by
  rw [← List.forall₂_eq_eq_eq, List.forall₂_map_left_iff, List.forall₂_map_right_iff]
  exact h

theorem agree_member (o o' : DecodeOptions) {item item' : Reader Parsed}
    (h : Agree SameParsed item item') :
    Agree (fun m m' => stored m = stored m') (member o item) (member o' item') := by
  refine .bind agree_peek fun b₁ b₂ hb => ?_
  subst hb
  refine .ite (.throw _) (.bind agree_skip fun _ _ _ =>
    .bind (agree_scan _) fun bytes bytes' hbytes => ?_)
  subst hbytes
  exact .bind (agree_key o o' bytes) fun k k' hk => .bind (agree_scan _) fun _ _ _ =>
    .bind h fun p p' hp => .pure (Prod.ext hk hp.value)

theorem agree_array {item item' : Reader Parsed} (h : Agree SameParsed item item') :
    Agree SameParsed (array item) (array item') := by
  refine .bind (agree_content .array h) fun ps ps' hps => .pure ⟨?_, rfl⟩
  exact congrArg Value.array (map_eq_map_of_forall₂ (hps.imp fun _ _ hp => hp.value))

theorem agree_object (o o' : DecodeOptions) {item item' : Reader Parsed}
    (h : Agree SameParsed item item') : Agree SameParsed (object o item) (object o' item') := by
  refine .bind (agree_content .object (agree_member o o' h)) fun ms ms' hms => .pure ?_
  have hstored := map_eq_map_of_forall₂ hms
  -- which members stay, and under which index, is a matter of the bytes of their keys
  have hkept := (Object.lastOfEach_map stored Prod.fst ms).symm.trans
    ((congrArg _ hstored).trans (Object.lastOfEach_map stored Prod.fst ms'))
  obtain ⟨hentries, hindex⟩ := Prod.mk.inj hkept
  refine ⟨congrArg Value.object (congrArg₂ Object.mk hentries hindex), ?_⟩
  have hkeys := congrArg (List.map Prod.fst) hentries
  simp only [List.map_map] at hkeys
  simp only [Option.map_some, List.map_map]
  exact congrArg some hkeys

variable (o : DecodeOptions) (cached : Bool) (extent : Extent)

theorem agree_dispatch {inside inside' : Container → Reader Parsed}
    (h : ∀ c, Agree SameParsed (inside c) (inside' c)) (b : UInt8) :
    Agree SameParsed (dispatch o extent inside b)
      (dispatch { o with useKeyCache := cached } extent inside' b) := by
  have hnamed (spelling : Bytes) (v : Value) :
      Agree SameParsed (named spelling v) (named spelling v) :=
    .bind (agree_scan _) fun _ _ _ => .pure ⟨rfl, rfl⟩
  refine .ite (.bind agree_skip fun _ _ _ => .bind (agree_scan _) fun s s' hs => ?_) <|
    .ite (.bind agree_skip fun _ _ _ => h .object) <|
    .ite (.bind agree_skip fun _ _ _ => h .array) <|
    .ite (hnamed _ _) <| .ite (hnamed _ _) <| .ite (hnamed _ _) <|
    .ite (.bind (agree_scan (NumberLiteral.value o extent)) fun v v' hv => ?_) <|
    .ite (hnamed _ _) <| .ite (hnamed _ _) (.throw _)
  · subst hs
    exact .pure ⟨rfl, rfl⟩
  · subst hv
    exact .pure ⟨rfl, rfl⟩

theorem agree_value (levels : Nat) :
    Agree SameParsed (value o extent levels)
      (value { o with useKeyCache := cached } extent levels) := by
  induction levels with
  | zero =>
    rw [value_eq, value_eq]
    refine .bind agree_peek fun b₁ b₂ hb => ?_
    subst hb
    exact agree_dispatch o cached extent (fun _ => .throw _) b₁
  | succ levels ih =>
    rw [value_eq, value_eq]
    refine .bind agree_peek fun b₁ b₂ hb => ?_
    subst hb
    refine agree_dispatch o cached extent (fun c => ?_) b₁
    cases c with
    | array => exact agree_array ih
    | object => exact agree_object o _ ih

theorem agree_leadingValue :
    Agree SameParsed (leadingValue o) (leadingValue { o with useKeyCache := cached }) :=
  agree_value o cached .leading o.depthLimit

theorem agree_document :
    Agree SameParsed (document o) (document { o with useKeyCache := cached }) := by
  refine .bind (agree_value o cached .whole o.depthLimit) fun p p' hp =>
    .bind (agree_scan _) fun _ _ _ text keys keys' => ?_
  exact Agree.ite (.throw _) (.pure hp) text keys keys'

end JsonCodec.Reader
