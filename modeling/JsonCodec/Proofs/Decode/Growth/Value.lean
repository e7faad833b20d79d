import Mathlib
import JsonCodec.Proofs.Decode.Growth.Number

set_option autoImplicit false

namespace JsonCodec
open Grammar Runs

namespace Reader

variable {α : Type}

theorem settles_scan {s : Scanner α} (h : Settles s) : Settles (scan s) := by
  intro ⟨text, keys⟩
  have hs := h text
  refine ⟨fun more => ?_, fun hend => ?_, fun fault s' hrun hc => ?_⟩
  · have hgrow : MayGoOn (s text) ∨ s (text ++ more) = _ := hs.grow more
    change MayGoOn (scan s ⟨text, keys⟩) ∨ scan s ⟨text ++ more, keys⟩ = _
    rw [scan_run, scan_run]
    cases hr : s text with
    | ok a rest =>
      rw [hr] at hgrow
      refine hgrow.imp id fun hgrow => ?_
      rw [hgrow]
      rfl
    | error fault rest =>
      rw [hr] at hgrow
      refine hgrow.imp id fun hgrow => ?_
      rw [hgrow]
      rfl
  · have hatEnd := hs.atEnd hend
    rw [scan_run]
    cases hr : s text with
    | ok a rest =>
      rw [hr] at hatEnd
      exact hatEnd
    | error fault rest =>
      rw [hr] at hatEnd
      exact hatEnd
  · rw [scan_run] at hrun
    cases hr : s text with
    | ok a rest =>
      rw [hr] at hrun
      cases hrun
    | error fault' rest =>
      rw [hr] at hrun
      obtain ⟨rfl, rfl⟩ := EStateM.Result.error.inj hrun
      exact hs.unterminated fault' rest hr hc

theorem settles_peek : Settles peek :=
  settles_scan (Scanner.settles_skipSpace.bind fun _ text => by
    rcases text with _ | ⟨b, rest⟩
    · exact settlesAt_nil rfl (by decide)
    · exact settlesAt_ok b (b :: rest) (List.cons_ne_nil _ _) fun _ => rfl)

theorem settles_skip : Settles skip :=
  settles_scan fun text => by
    rcases text with _ | ⟨b, rest⟩
    · exact settlesAt_nil_ok rfl
    · exact settlesAt_ok ⟨⟩ rest (List.cons_ne_nil _ _) fun _ => rfl

theorem settles_key (o : DecodeOptions) (bytes : Bytes) : Settles (key o bytes) :=
  fun _ => ⟨fun _ => .inr rfl, fun h => h, fun _ _ h => by cases h⟩

theorem settles_named (spelling : Bytes) (v : Value) : Settles (named spelling v) :=
  (settles_scan (Scanner.settles_word spelling)).bind fun _ => .pure _

theorem settlesAt_throw {b : UInt8} {rest : Bytes} {keys : KeyCache} {fault : Fault}
    (h : fault.code ≠ .unterminatedValue) :
    SettlesAt (throw fault : Reader α) ⟨b :: rest, keys⟩ :=
  .of_fault ⟨b :: rest, keys⟩ (Nat.succ_ne_zero _) rfl (fun _ => rfl) h

theorem settles_peekBind {f : UInt8 → Reader α}
    (h : ∀ b rest keys, SettlesAt (f b) ⟨b :: rest, keys⟩) : Settles (peek >>= f) :=
  fun s => (settles_peek s).bind fun b s' hrun => by
    obtain ⟨blanks, rest, -, -, rfl⟩ := peek_eq_ok hrun
    exact h b rest _

theorem length_of_ok {x : Reader α} (hx : Conserves x) {s s' : Cursor} {a : α}
    (h : x s = .ok a s') : s'.rest.length ≤ s.rest.length := by
  have hc := hx s s.rest.length le_rfl
  rw [LeavesAt, h] at hc
  exact hc

def Takes (x : Reader α) : Prop := ∀ s a s', x s = .ok a s' → s'.rest.length < s.rest.length

theorem takes_value (o : DecodeOptions) (extent : Extent) (levels : Nat) :
    Takes (value o extent levels) := by
  intro s parsed s' h
  obtain ⟨before, t, ht, -⟩ := startsWithTree_of_value o extent levels _ _ _ _ _ h
  obtain ⟨init, b, hlast, -⟩ := t.exists_closes
  rw [ht, hlast]
  simp only [List.length_append, List.length_singleton]
  omega

theorem takes_member {o : DecodeOptions} {item : Reader Parsed} (h : Conserves item) :
    Takes (member o item) := by
  intro s m s' hrun
  obtain ⟨name, rest, htext, -, parsed, keys, hvalue⟩ := member_eq_ok hrun
  have hle := length_of_ok h hvalue
  rw [htext, Name.text]
  simp only [List.length_append, List.length_singleton]
  simp only at hle
  omega

section
variable (c : Container) {item : Reader α}

/-- A container is not left unread because it has too many items. -/
theorem items_fuel (ht : Takes item) {fuel fuel' : Nat} {s : Cursor}
    (h : s.rest.length < fuel) (h' : s.rest.length < fuel') :
    items c item fuel s = items c item fuel' s := by
  induction fuel generalizing fuel' s with
  | zero => omega
  | succ fuel ih =>
    obtain ⟨fuel', rfl⟩ := Nat.exists_eq_add_of_le' (show 1 ≤ fuel' by omega)
    rw [items, items, bind_run, bind_run]
    cases hitem : item s with
    | error fault s₁ => rfl
    | ok a s₁ =>
      have hlt := ht s a s₁ hitem
      simp only [bind_run]
      cases hpeek : peek s₁ with
      | error fault s₂ => rfl
      | ok b s₂ =>
        have hle := length_of_ok conserves_peek hpeek
        have hrest : (s₂.rest.drop 1).length ≤ s₂.rest.length := (List.drop_sublist _ _).length_le
        simp only
        split_ifs
        · have hmore := @ih fuel' ⟨s₂.rest.drop 1, s₂.keys⟩
            (by simp only; omega) (by simp only; omega)
          have hskip : skip s₂ = .ok ⟨⟩ ⟨s₂.rest.drop 1, s₂.keys⟩ := rfl
          simp only [bind_run, hskip, hmore]
        · rfl
        · rfl

theorem settlesAt_items (h : Settles item) (ht : Takes item) {fuel : Nat} {s : Cursor}
    (hf : s.rest.length < fuel) : SettlesAt (items c item fuel) s := by
  induction fuel generalizing s with
  | zero => omega
  | succ fuel ih =>
    refine (h s).bind fun a s₁ hitem => (settles_peek s₁).bind fun b s₂ hpeek => ?_
    have hlt := ht s a s₁ hitem
    have hle := length_of_ok conserves_peek hpeek
    refine .ite (fun _ => (settles_skip s₂).bind fun _ s₃ hskip => ?_) fun _ => .ite
      (fun _ => (settles_skip s₂).bind fun _ _ _ => .pure _) fun _ => ?_
    · have hle' := length_of_ok conserves_skip hskip
      exact (ih (by omega)).bind fun _ _ _ => .pure _
    · obtain ⟨blanks, rest, -, -, rfl⟩ := peek_eq_ok hpeek
      exact settlesAt_throw (by cases c <;> decide)

theorem settles_allItems (h : Settles item) (ht : Takes item) :
    Settles (get >>= fun s : Cursor => items c item (s.rest.length + 1)) := by
  intro s
  have hs := settlesAt_items c h ht (Nat.lt_succ_self s.rest.length)
  refine ⟨fun more => ?_, hs.atEnd, hs.unterminated⟩
  have hlt : s.rest.length < (s.rest ++ more).length + 1 := by
    rw [List.length_append]
    omega
  have hgrow := (settlesAt_items c h ht hlt).grow more
  rw [← items_fuel c ht (Nat.lt_succ_self s.rest.length) hlt] at hgrow
  exact hgrow

theorem settles_content (h : Settles item) (ht : Takes item) : Settles (content c item) :=
  settles_peek.bind fun _ => .ite (settles_skip.bind fun _ => .pure _) (settles_allItems c h ht)

end

theorem settles_member (o : DecodeOptions) {item : Reader Parsed} (h : Settles item) :
    Settles (member o item) := by
  refine settles_peekBind fun b rest keys => .ite (fun _ => ?_) fun _ => ?_
  · exact SettlesAt.bind (settlesAt_throw (by decide)) fun _ s' hrun => by cases hrun
  · exact (settles_skip.bind fun _ => (settles_scan StringLiteral.settles_content).bind fun bytes =>
      (settles_key o bytes).bind fun _ =>
        (settles_scan (Scanner.settles_skipSpace.bind fun _ =>
          Scanner.settles_expect Byte.colon)).bind fun _ => h.bind fun _ => .pure _) _

theorem settlesAt_dispatch (o : DecodeOptions) (extent : Extent)
    {inside : Container → Reader Parsed} {b : UInt8} {rest : Bytes} {keys : KeyCache}
    (h : ∀ c, SettlesAt (skip >>= fun _ => inside c) ⟨b :: rest, keys⟩) :
    SettlesAt (dispatch o extent inside b) ⟨b :: rest, keys⟩ := by
  refine .ite (fun _ => ?_) fun _ => .ite (fun _ => h .object) fun _ => .ite (fun _ => h .array)
    fun _ => .ite (fun _ => settles_named _ _ _) fun _ => .ite (fun _ => settles_named _ _ _)
    fun _ => .ite (fun _ => settles_named _ _ _) fun _ => .ite (fun _ => ?_)
    fun _ => .ite (fun _ => settles_named _ _ _) fun _ => .ite (fun _ => settles_named _ _ _)
    fun _ => settlesAt_throw (by simp [Fault.code])
  · exact (settles_skip.bind fun _ =>
      (settles_scan StringLiteral.settles_content).bind fun _ => .pure _) _
  · exact ((settles_scan (NumberLiteral.settles_value o extent)).bind fun _ => .pure _) _

theorem settles_value (o : DecodeOptions) (extent : Extent) (levels : Nat) :
    Settles (value o extent levels) := by
  induction levels with
  | zero =>
    rw [value_eq]
    refine settles_peekBind fun b rest keys => settlesAt_dispatch o extent fun c => ?_
    -- An opening byte is one too many, whatever it opens.
    exact .of_fault ⟨rest, keys⟩ (Nat.succ_ne_zero _) rfl (fun _ => rfl) (by decide)
  | succ levels ih =>
    have htakes := takes_value o extent levels
    have hconserves := conserves_value o extent levels
    rw [value_eq]
    refine settles_peekBind fun b rest keys => settlesAt_dispatch o extent fun c => ?_
    refine settles_skip.bind (fun _ => ?_) _
    cases c with
    | array => exact (settles_content .array ih htakes).bind fun _ => .pure _
    | object =>
      exact (settles_content .object (settles_member o ih) (takes_member hconserves)).bind
        fun _ => .pure _

theorem settles_leadingValue (o : DecodeOptions) : Settles (leadingValue o) :=
  settles_value o .leading o.depthLimit

theorem settles_document (o : DecodeOptions) : Settles (document o) := by
  refine (settles_value o .whole o.depthLimit).bind fun parsed =>
    (settles_scan Scanner.settles_skipSpace).bind fun _ s => ?_
  obtain ⟨text, keys⟩ := s
  rcases text with _ | ⟨b, rest⟩
  · exact ⟨fun _ => .inl rfl, fun _ => rfl, fun _ _ h => by cases h⟩
  · exact .of_fault ⟨b :: rest, keys⟩ (Nat.succ_ne_zero _) rfl (fun _ => rfl) (by decide)

end Reader
end JsonCodec
