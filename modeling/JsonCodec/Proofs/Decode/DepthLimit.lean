import Mathlib
import JsonCodec.Proofs.Decode.Acceptance
import JsonCodec.Proofs.Decode.KeysTaken
import JsonCodec.Proofs.Grammar.Walk
import JsonCodec.Proofs.Location

set_option autoImplicit false

/-!
# The depth limit

Two readers that differ in nothing but their depth limits do the same, up to the first bracket that
opens more containers than the lower limit allows. There the reader with the lower limit stops.
-/
namespace JsonCodec

namespace Reader
open Grammar Runs

variable {α β : Type} {p q r : Place} {s s' s'' : Cursor} {nest : List Container} {atKey : Bool}
  {limit : Nat}

/-- Between two cursors lie bytes that lead from one place to another, and on the way no more
containers than the limit are open. -/
def Goes (limit : Nat) (p q : Place) (s s' : Cursor) : Prop :=
  ∃ read, s.rest = read ++ s'.rest ∧ p.after read = q ∧ p.Within limit read

def Overruns (limit : Nat) (p : Place) (s s' : Cursor) : Prop :=
  ∃ nest atKey c keys, nest.length = limit ∧
    Goes limit p (.outside nest atKey) s ⟨openingByte c :: s'.rest, keys⟩

/-- How a run that may open only so many containers compares to one that may open more. -/
inductive CutAt (limit : Nat) (p q : Place) (s : Cursor) :
    EStateM.Result Fault Cursor α → EStateM.Result Fault Cursor α → Prop
  | ok (a : α) {s' : Cursor} (h : Goes limit p q s s') : CutAt limit p q s (.ok a s') (.ok a s')
  | error (fault : Fault) (s' : Cursor) : CutAt limit p q s (.error fault s') (.error fault s')
  | tooDeep {s' : Cursor} {result : EStateM.Result Fault Cursor α} (h : Overruns limit p s s')
    (hrest : (finalState result).rest.length ≤ s'.rest.length) :
    CutAt limit p q s (.error .tooDeep s') result

def Cut (limit : Nat) (p q : Place) (x y : Reader α) : Prop := ∀ s, CutAt limit p q s (x s) (y s)

theorem Goes.refl (h : p.depth ≤ limit) (s : Cursor) : Goes limit p p s s := ⟨[], rfl, rfl, h⟩

theorem Goes.trans (h : Goes limit p q s s') (h' : Goes limit q r s' s'') :
    Goes limit p r s s'' := by
  obtain ⟨read, hrest, rfl, hwithin⟩ := h
  obtain ⟨read', hrest', rfl, hwithin'⟩ := h'
  refine ⟨read ++ read', ?_, Place.after_append p read read', ?_⟩
  · rw [hrest, hrest', List.append_assoc]
  · exact (Place.within_append p read read').2 ⟨hwithin, hwithin'⟩

theorem Goes.cutAt {x y : EStateM.Result Fault Cursor α} (h : Goes limit p q s s')
    (h' : CutAt limit q r s' x y) : CutAt limit p r s x y := by
  cases h' with
  | ok a h' => exact .ok a (h.trans h')
  | error fault s'' => exact .error fault s''
  | tooDeep h' hrest =>
    obtain ⟨nest, atKey, c, keys, hnest, h'⟩ := h'
    exact .tooDeep ⟨nest, atKey, c, keys, hnest, h.trans h'⟩ hrest

/-- Two readers go on after two others. Where the lower limit stops the first of those, the second
ends no earlier, whatever comes after it. -/
theorem CutAt.bind {x y : Reader α} {f g : α → Reader β} (h : CutAt limit p q s (x s) (y s))
    (hf : ∀ a s', CutAt limit q r s' (f a s') (g a s')) (hg : ∀ a, Conserves (g a)) :
    CutAt limit p r s ((x >>= f) s) ((y >>= g) s) := by
  rw [bind_run, bind_run]
  generalize x s = low at h
  generalize y s = high at h
  cases h with
  | ok a h => exact h.cutAt (hf a _)
  | error fault s' => exact .error fault s'
  | tooDeep h hrest =>
    refine .tooDeep h ?_
    cases high with
    | ok a s'' => exact hg a s'' _ hrest
    | error fault s'' => exact hrest

theorem CutAt.step {x : Reader α} {f g : α → Reader β}
    (h : ∀ a s', x s = .ok a s' → Goes limit p q s s' ∧ CutAt limit q r s' (f a s') (g a s')) :
    CutAt limit p r s ((x >>= f) s) ((x >>= g) s) := by
  rw [bind_run, bind_run]
  cases hx : x s with
  | ok a s' =>
    obtain ⟨hgoes, hcut⟩ := h a s' hx
    exact hgoes.cutAt hcut
  | error fault s' => exact .error fault s'

theorem CutAt.ite {c : Prop} [Decidable c] {x x' y y' : Reader α}
    (hx : c → CutAt limit p q s (x s) (y s)) (hy : ¬ c → CutAt limit p q s (x' s) (y' s)) :
    CutAt limit p q s ((if c then x else x') s) ((if c then y else y') s) := by
  split_ifs with h
  · exact hx h
  · exact hy h

theorem cutAt_pure (h : p.depth ≤ limit) (a : α) :
    CutAt limit p p s ((pure a : Reader α) s) ((pure a : Reader α) s) := .ok a (.refl h s)

theorem cutAt_throw (fault : Fault) :
    CutAt limit p q s ((throw fault : Reader α) s) ((throw fault : Reader α) s) := .error fault s

theorem goes_scan {x : Scanner α} (hx : SeesNoStructure x) (hn : nest.length ≤ limit) {a : α}
    (h : scan x s = .ok a s') :
    Goes limit (.outside nest atKey) (.outside nest atKey) s s' := by
  obtain ⟨rest, hrun, rfl⟩ := scan_eq_ok.1 h
  have hreached := hx s.rest
  rw [hrun] at hreached
  obtain ⟨read, hread, hneutral⟩ := hreached
  exact ⟨read, hread, (Place.neutral nest atKey hneutral).1, (Place.within_neutral hneutral).2 hn⟩

theorem goes_byte {b : UInt8} (hp : p.depth ≤ limit) (hb : (p.next b).depth ≤ limit) (rest : Bytes)
    (keys : KeyCache) : Goes limit p (p.next b) ⟨b :: rest, keys⟩ ⟨rest, keys⟩ :=
  ⟨[b], rfl, rfl, hp, hb⟩

theorem goes_opening (c : Container) (hn : nest.length + 1 ≤ limit) (rest : Bytes)
    (keys : KeyCache) :
    Goes limit (.outside nest atKey) (.outside (c :: nest) (c == .object))
      ⟨openingByte c :: rest, keys⟩ ⟨rest, keys⟩ := by
  rw [← Place.next_opening c atKey]
  refine goes_byte (Nat.le_of_succ_le hn) ?_ rest keys
  rw [Place.next_opening]
  exact hn

theorem goes_content (hn : nest.length ≤ limit) (isKey : Bool) {bytes : Bytes}
    (h : scan StringLiteral.content s = .ok bytes s') :
    Goes limit (.literal nest isKey [] false) (.outside nest false) s s' := by
  obtain ⟨rest, hrun, rfl⟩ := scan_eq_ok.1 h
  obtain ⟨ps, hp, hread, -⟩ := StringLiteral.content_eq_ok hrun
  exact ⟨Piece.join ps ++ [Byte.quote], by simp [hread], (Place.literal_join nest hp isKey).1,
    (Place.within_join ps isKey).2 hn⟩

theorem goes_key {o : DecodeOptions} {bytes : Bytes} {k : Key} (hp : p.depth ≤ limit)
    (h : key o bytes s = .ok k s') : Goes limit p p s s' := by
  obtain ⟨-, rfl⟩ := EStateM.Result.ok.inj h
  exact ⟨[], rfl, rfl, hp⟩

theorem cutAt_peek {f g : UInt8 → Reader α} (hn : nest.length ≤ limit)
    (h : ∀ b rest, CutAt limit (.outside nest atKey) q ⟨b :: rest, s.keys⟩
      (f b ⟨b :: rest, s.keys⟩) (g b ⟨b :: rest, s.keys⟩)) :
    CutAt limit (.outside nest atKey) q s ((peek >>= f) s) ((peek >>= g) s) := by
  refine .step fun b s' hp => ⟨goes_scan seesNoStructure_peek hn hp, ?_⟩
  obtain ⟨-, rest, -, -, rfl⟩ := peek_eq_ok hp
  exact h b rest

theorem cutAt_skip {b : UInt8} (hp : p.depth ≤ limit) (hb : (p.next b).depth ≤ limit) {rest : Bytes}
    {keys : KeyCache} {f g : Unit → Reader α}
    (h : CutAt limit (p.next b) q ⟨rest, keys⟩ (f ⟨⟩ ⟨rest, keys⟩) (g ⟨⟩ ⟨rest, keys⟩)) :
    CutAt limit p q ⟨b :: rest, keys⟩ ((skip >>= f) ⟨b :: rest, keys⟩)
      ((skip >>= g) ⟨b :: rest, keys⟩) :=
  (goes_byte hp hb rest keys).cutAt h

theorem cutAt_close (c : Container) (hn : nest.length + 1 ≤ limit) {rest : Bytes} {keys : KeyCache}
    {a : α} :
    CutAt limit (.outside (c :: nest) atKey) (.outside nest false) ⟨c.close :: rest, keys⟩
      ((do skip; return a : Reader α) ⟨c.close :: rest, keys⟩)
      ((do skip; return a : Reader α) ⟨c.close :: rest, keys⟩) := by
  have hnest : (Place.outside nest false).depth ≤ limit := Nat.le_of_succ_le hn
  refine cutAt_skip hn ?_ ?_
  · rw [Place.next_close]
    exact hnest
  · rw [Place.next_close]
    exact cutAt_pure hnest a

theorem cut_items (c : Container) {item item' : Reader α} (hn : nest.length + 1 ≤ limit)
    (h : Cut limit (.outside (c :: nest) (c == .object)) (.outside (c :: nest) false) item item')
    (hitem : Conserves item') (fuel : Nat) :
    Cut limit (.outside (c :: nest) (c == .object)) (.outside nest false)
      (items c item fuel) (items c item' fuel) := by
  induction fuel with
  | zero => exact fun _ => cutAt_throw _
  | succ fuel ih =>
    intro s
    refine .bind (h s) (fun a s' => cutAt_peek hn fun b rest => .ite (fun hb => ?_) fun _ =>
      .ite (fun hb => ?_) fun _ => cutAt_throw _) fun a => ?_
    · subst hb
      refine cutAt_skip hn ?_ ?_
      · rw [Place.next_comma]
        exact hn
      · rw [Place.next_comma]
        exact .bind (ih _) (fun _ _ => cutAt_pure (Nat.le_of_succ_le hn) _) fun _ => .pure _
    · subst hb
      exact cutAt_close c hn
    · exact .bind conserves_peek fun _ => .ite
        (.bind conserves_skip fun _ => .bind (conserves_items c hitem fuel) fun _ => .pure _)
        (.ite (.bind conserves_skip fun _ => .pure _) (.throw _))

theorem cut_content (c : Container) {item item' : Reader α} (hn : nest.length + 1 ≤ limit)
    (h : Cut limit (.outside (c :: nest) (c == .object)) (.outside (c :: nest) false) item item')
    (hitem : Conserves item') :
    Cut limit (.outside (c :: nest) (c == .object)) (.outside nest false)
      (content c item) (content c item') := by
  intro s
  refine cutAt_peek hn fun b rest => .ite (fun hb => ?_) fun _ => cut_items c hn h hitem _ _
  subst hb
  exact cutAt_close c hn

theorem cut_member (o : DecodeOptions) {value value' : Reader Parsed} (hn : nest.length ≤ limit)
    (h : Cut limit (.outside nest false) (.outside nest false) value value') :
    Cut limit (.outside nest true) (.outside nest false) (member o value) (member o value') := by
  intro s
  refine cutAt_peek hn fun b rest => .ite (fun _ => cutAt_throw _) fun hb => ?_
  obtain rfl : b = Byte.quote := not_not.1 hb
  refine cutAt_skip hn hn (.step fun _ s₁ hs₁ => ⟨goes_content hn true hs₁, ?_⟩)
  refine .step fun _ s₂ hs₂ => ⟨goes_key hn hs₂, .step fun _ s₃ hs₃ => ⟨goes_scan ?_ hn hs₃, ?_⟩⟩
  · exact .bind Scanner.seesNoStructure_skipSpace fun _ => Scanner.seesNoStructure_colon
  · exact .bind (h s₃) (fun _ _ => cutAt_pure hn _) fun _ => .pure _

theorem cut_named {spelling : Bytes} (v : Value) (hn : nest.length ≤ limit)
    (h : ∀ b ∈ spelling, Place.isStructural b = false) :
    Cut limit (.outside nest atKey) (.outside nest atKey) (named spelling v) (named spelling v) :=
  fun _ => .step fun _ _ hs => ⟨goes_scan (Scanner.seesNoStructure_word h) hn hs, cutAt_pure hn _⟩

/-- Only behind a bracket it matters how many containers may be open. -/
theorem cutAt_dispatch (o : DecodeOptions) (extent : Extent) (hn : nest.length ≤ limit)
    {inside inside' : Container → Reader Parsed} {b : UInt8} {rest : Bytes} {keys : KeyCache}
    (h : ∀ c, CutAt limit (.outside nest false) (.outside nest false) ⟨openingByte c :: rest, keys⟩
      (inside c ⟨rest, keys⟩) (inside' c ⟨rest, keys⟩)) :
    CutAt limit (.outside nest false) (.outside nest false) ⟨b :: rest, keys⟩
      (dispatch o extent inside b ⟨b :: rest, keys⟩)
      (dispatch o extent inside' b ⟨b :: rest, keys⟩) := by
  refine .ite (fun hb => ?_) fun _ => .ite (fun hb => ?_) fun _ => .ite (fun hb => ?_) fun _ =>
    .ite (fun _ => cut_named _ hn (by decide +kernel) _) fun _ =>
    .ite (fun _ => cut_named _ hn (by decide +kernel) _) fun _ =>
    .ite (fun _ => cut_named _ hn (by decide +kernel) _) fun _ =>
    .ite (fun _ => ?_) fun _ =>
    .ite (fun _ => cut_named _ hn (by decide +kernel) _) fun _ =>
    .ite (fun _ => cut_named _ hn NumberLiteral.isStructural_infinityWord _) fun _ =>
    cutAt_throw _
  · subst hb
    exact cutAt_skip hn hn (.step fun _ _ hs => ⟨goes_content hn false hs, cutAt_pure hn _⟩)
  · subst hb
    exact h .object
  · subst hb
    exact h .array
  · exact .step fun _ _ hs =>
      ⟨goes_scan (NumberLiteral.seesNoStructure_value o extent) hn hs, cutAt_pure hn _⟩

/-- By induction on the levels that are left below the limit. With none left, the bracket that would
open one more is the place where the runs part. -/
theorem cut_value (o : DecodeOptions) (extent : Extent) {levels : Nat} (extra : Nat)
    (hlimit : nest.length + levels = limit) :
    Cut limit (.outside nest false) (.outside nest false)
      (value o extent levels) (value o extent (levels + extra)) := by
  have hn : nest.length ≤ limit := by omega
  induction levels generalizing nest with
  | zero =>
    intro s
    rw [value_eq, value_eq]
    refine cutAt_peek hn fun b rest => cutAt_dispatch o extent hn fun c => .tooDeep ?_ ?_
    · exact ⟨nest, false, c, s.keys, hlimit, .refl hn _⟩
    · exact conserves_inside o extent _ c ⟨rest, s.keys⟩ _ le_rfl
  | succ levels ih =>
    intro s
    have hc (c : Container) : (c :: nest).length + levels = limit := by
      rw [List.length_cons]
      omega
    have hcons : nest.length + 1 ≤ limit := by omega
    rw [value_eq, value_eq, Nat.add_right_comm levels 1 extra]
    refine cutAt_peek hn fun b rest => cutAt_dispatch o extent hn fun c => ?_
    refine (goes_opening c hcons rest s.keys).cutAt ?_
    have hvalue := conserves_value o extent (levels + extra)
    cases c with
    | array =>
      exact .bind (cut_content .array hcons (ih (hc .array) hcons) hvalue _)
        (fun _ _ => cutAt_pure hn _) fun _ => .pure _
    | object =>
      exact .bind (cut_content .object hcons (cut_member o hcons (ih (hc .object) hcons))
        (conserves_member o hvalue) _) (fun _ _ => cutAt_pure hn _) fun _ => .pure _

theorem value_maxDepth (o : DecodeOptions) (limit : Nat) (extent : Extent) (levels : Nat) :
    value { o with maxDepth := limit } extent levels = value o extent levels := by
  induction levels with
  | zero => rfl
  | succ levels ih =>
    rw [value, value, ih]
    rfl

theorem cut_document (o : DecodeOptions) {d D : Nat} (hd : 1 ≤ d) (hD : d ≤ D) :
    Cut d .start .start (document { o with maxDepth := d }) (document { o with maxDepth := D }) := by
  have hlow : ({ o with maxDepth := d } : DecodeOptions).depthLimit = d := if_neg (by simp; omega)
  have hhigh : ({ o with maxDepth := D } : DecodeOptions).depthLimit = D := if_neg (by simp; omega)
  obtain ⟨extra, rfl⟩ := Nat.exists_eq_add_of_le hD
  have hvalue : Cut d .start .start (value o .whole d) (value o .whole (d + extra)) :=
    cut_value o .whole extra (Nat.zero_add d)
  intro s
  rw [document, document, hlow, hhigh, value_maxDepth o d, value_maxDepth o (d + extra)]
  refine .bind (hvalue s) (fun parsed s' => ?_) fun parsed => ?_
  · refine .step fun _ s'' hs => ⟨goes_scan Scanner.seesNoStructure_skipSpace (Nat.zero_le d) hs, ?_⟩
    exact CutAt.ite (fun _ => cutAt_throw _) fun _ => cutAt_pure (Nat.zero_le d) _
  · exact .bind (conserves_scan Scanner.conserves_skipSpace) fun _ => .getBind fun cursor =>
      Conserves.ite (.throw _) (.pure _) cursor

end Reader

namespace Grammar

/-- Byte number `n` of a text is the first behind which more containers are open than the limit: a
bracket that opens one too many. -/
structure FirstBeyond (limit : Nat) (text : Bytes) (n : Nat) : Prop where
  opens : ∃ c, text[n]? = some (openingByte c)
  before : ∀ k ≤ n, openAt text k ≤ limit
  beyond : openAt text (n + 1) = limit + 1

variable {limit n : Nat} {text rest : Bytes}

theorem FirstBeyond.exceeds (h : FirstBeyond limit text n) : ¬ ∀ k, openAt text k ≤ limit :=
  fun hall => absurd (hall (n + 1)) (by rw [h.beyond]; omega)

theorem FirstBeyond.lt_length (h : FirstBeyond limit text n) : n < text.length := by
  obtain ⟨c, hc⟩ := h.opens
  exact (List.getElem?_eq_some_iff.1 hc).1

theorem firstBeyond_bracket {nest : List Container} {atKey : Bool} (c : Container)
    (hwithin : Place.start.Within limit text) (hafter : Place.start.after text = .outside nest atKey)
    (hnest : nest.length = limit) :
    FirstBeyond limit (text ++ openingByte c :: rest) text.length where
  opens := ⟨c, by simp⟩
  before k hk := by
    rw [openAt, List.take_append_of_le_length hk]
    exact (Place.within_iff .start text).1 hwithin k
  beyond := by
    have htake : (text ++ openingByte c :: rest).take (text.length + 1) =
        text ++ [openingByte c] := by simp [List.take_append]
    rw [openAt, htake, Place.after_append, hafter, ← hnest]
    exact congrArg Place.depth (Place.next_opening c atKey)

end Grammar

namespace Decode
open Grammar

variable {o : DecodeOptions} {d D : Nat} {text : Bytes} {cache : KeyCache}

structure TooDeepAt (limit : Nat) (text : Bytes) (result : Decoding Parsed) (n : Nat) : Prop where
  first : FirstBeyond limit text n
  error : result.1 = .error ⟨.tooDeep, locate text (n + 1)⟩
  code : code result = .depthExceeded
  offset : (locate text (n + 1)).offset = n + 1

/-- How a decoding under a depth limit compares to one under a limit that is no lower. -/
structure DepthCut (o : DecodeOptions) (d D : Nat) (text : Bytes) (cache : KeyCache) : Prop where
  within : ∀ p keys, whole { o with maxDepth := D } (.bytes text) cache = (.ok p, keys) →
    (∀ k, openAt text k ≤ d) → whole { o with maxDepth := d } (.bytes text) cache = (.ok p, keys)
  beyond : ∀ p keys, whole { o with maxDepth := D } (.bytes text) cache = (.ok p, keys) →
    (¬ ∀ k, openAt text k ≤ d) →
    ∃ n, TooDeepAt d text (whole { o with maxDepth := d } (.bytes text) cache) n
  /-- A text that fails either fails in the same way, or for its depth, and then no later. -/
  failing : ∀ e keys, whole { o with maxDepth := D } (.bytes text) cache = (.error e, keys) →
    whole { o with maxDepth := d } (.bytes text) cache = (.error e, keys) ∨
      ∃ n, TooDeepAt d text (whole { o with maxDepth := d } (.bytes text) cache) n ∧
        n + 1 ≤ e.location.offset
  /-- What counts is the depth of the tree the text stands for, with the members that its value
  does not keep; containers side by side do not add up. -/
  tree : ∀ p keys, whole { o with maxDepth := D } (.bytes text) cache = (.ok p, keys) →
    ∃ (before : Blanks) (t : Tree) (after : Blanks), text = before.text ++ t.text ++ after.text ∧
      p.value = t.value (Token.value o.bigInteger) ∧ ((∀ k, openAt text k ≤ d) ↔ t.depth ≤ d)

theorem tooDeepAt_overruns {s : Cursor} (h : Reader.Overruns d .start ⟨text, cache⟩ s) :
    ∃ n, TooDeepAt d text (.error (DecodeError.ofFault text s.rest .tooDeep), s.keys) n ∧
      n + 1 = text.length - s.rest.length := by
  obtain ⟨nest, atKey, c, keys, hnest, read, hread, hafter, hwithin⟩ := h
  simp only at hread
  have hlen : text.length - s.rest.length = read.length + 1 := by
    rw [hread, List.length_append, List.length_cons]
    omega
  have hfirst : FirstBeyond d text read.length :=
    hread ▸ firstBeyond_bracket c hwithin hafter hnest
  refine ⟨read.length, ⟨hfirst, ?_, rfl, ?_⟩, hlen.symm⟩
  · rw [DecodeError.ofFault, hlen]
  · rw [offset_locate]
    exact Nat.min_eq_left hfirst.lt_length

/-- Either the lower limit makes no difference, or it stops the decoding before the end. -/
theorem whole_cut (o : DecodeOptions) (hd : 1 ≤ d) (hD : d ≤ D) (text : Bytes) (cache : KeyCache) :
    whole { o with maxDepth := d } (.bytes text) cache =
        whole { o with maxDepth := D } (.bytes text) cache ∨
      ∃ n, TooDeepAt d text (whole { o with maxDepth := d } (.bytes text) cache) n ∧
        ∀ e keys, whole { o with maxDepth := D } (.bytes text) cache = (.error e, keys) →
          n + 1 ≤ e.location.offset := by
  have hread (limit : Nat) : (Source.bytes text).read { o with maxDepth := limit } =
      (Source.bytes text).read o := rfl
  simp only [whole, hread]
  cases hsource : (Source.bytes text).read o with
  | error e => exact .inl rfl
  | ok text' =>
    obtain ⟨rfl, -⟩ := Source.checks_of_read hsource
    simp only
    cases shortLiteral? text' with
    | some v => exact .inl rfl
    | none =>
      have hcut := Reader.cut_document o hd hD ⟨text', cache⟩
      simp only [run]
      generalize Reader.document { o with maxDepth := d } ⟨text', cache⟩ = low at hcut ⊢
      generalize Reader.document { o with maxDepth := D } ⟨text', cache⟩ = high at hcut ⊢
      cases hcut with
      | ok p h => exact .inl rfl
      | error fault s => exact .inl rfl
      | tooDeep h hrest =>
        obtain ⟨n, hn, hlen⟩ := tooDeepAt_overruns h
        refine .inr ⟨n, hn, fun e keys he => ?_⟩
        cases high with
        | ok p s' => cases he
        | error fault s' =>
          obtain rfl := Except.error.inj (congrArg Prod.fst he)
          rw [DecodeError.ofFault, offset_locate, Nat.min_eq_left (Nat.sub_le _ _), hlen]
          exact Nat.sub_le_sub_left hrest _

theorem depthCut (o : DecodeOptions) (hd : 1 ≤ d) (hD : d ≤ D) (text : Bytes) (cache : KeyCache) :
    DepthCut o d D text cache := by
  have htree {limit : Nat} {p : Parsed} {keys : KeyCache}
      (h : whole { o with maxDepth := limit } (.bytes text) cache = (.ok p, keys)) :
      ∃ (before : Blanks) (t : Tree) (after : Blanks), text = before.text ++ t.text ++ after.text ∧
        t.depth ≤ ({ o with maxDepth := limit } : DecodeOptions).depthLimit ∧
        p.value = t.value (Token.value o.bigInteger) ∧
        ∀ k, (∀ i, openAt text i ≤ k) ↔ t.depth ≤ k := by
    obtain ⟨-, before, t, after, rfl, hdepth, hr, hv⟩ := whole_eq_ok h
    exact ⟨before, t, after, rfl, hdepth, hv,
      openAt_tree (fun k hk => (hr k hk).surrogatesPaired) before after⟩
  constructor
  case within =>
    intro p keys h hall
    obtain heq | ⟨n, hn, -⟩ := whole_cut o hd hD text cache
    · exact heq.trans h
    · exact absurd hall hn.first.exceeds
  case beyond =>
    intro p keys h hnot
    obtain heq | ⟨n, hn, -⟩ := whole_cut o hd hD text cache
    · obtain ⟨_, t, _, -, hdepth, -, hopen⟩ := htree (heq.trans h)
      rw [DecodeOptions.depthLimit, if_neg (by simp; omega)] at hdepth
      exact absurd ((hopen d).2 hdepth) hnot
    · exact ⟨n, hn⟩
  case failing =>
    intro e keys h
    obtain heq | ⟨n, hn, hle⟩ := whole_cut o hd hD text cache
    · exact .inl (heq.trans h)
    · exact .inr ⟨n, hn, hle e keys h⟩
  case tree =>
    intro p keys h
    obtain ⟨before, t, after, ht, -, hv, hopen⟩ := htree h
    exact ⟨before, t, after, ht, hv, hopen d⟩

/-- A limit of two lets siblings pass, and stops at the bracket inside the second one. -/
theorem depthCut_siblings :
    1 ≤ 2 ∧ 2 ≤ 3 ∧ ∃ n, TooDeepAt 2 (Bytes.ascii "[[], [[]]]")
      (whole { maxDepth := 2 } (.bytes (Bytes.ascii "[[], [[]]]")) KeyCache.empty) n :=
  have hd : 1 ≤ 2 := by decide
  have hD : 2 ≤ 3 := by decide
  have hopen : ¬ ∀ k, openAt (Bytes.ascii "[[], [[]]]") k ≤ 2 :=
    fun h => absurd (h 7) (by decide +kernel)
  ⟨hd, hD, (depthCut {} hd hD (Bytes.ascii "[[], [[]]]") KeyCache.empty).beyond _ _ rfl hopen⟩

end Decode
end JsonCodec
