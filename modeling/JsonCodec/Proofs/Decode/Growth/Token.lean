import Mathlib
import JsonCodec.Proofs.Decode.Conservation
import JsonCodec.Proofs.Decode.Tree

set_option autoImplicit false

/-!
# Reading a text that grows

A run that ends before the end of its text has decided on bytes that it has seen, so more text
behind them changes nothing. Only a run that ends with the text may go on differently.
-/
namespace JsonCodec
open Grammar Runs

class Growing (σ : Type) extends Remaining σ where
  grow : σ → Bytes → σ

instance : Growing Bytes where
  grow text more := text ++ more

instance : Growing Cursor where
  grow cursor more := { cursor with rest := cursor.rest ++ more }

/-- A fault that no text behind it can mend. -/
def Fault.IsFinal (fault : Fault) : Prop :=
  fault.code = .unexpectedToken ∨ fault.code = .trailingData ∨ fault.code = .depthExceeded

instance (fault : Fault) : Decidable fault.IsFinal := inferInstanceAs (Decidable (_ ∨ _))

section
variable {σ α β : Type} [Growing σ]

def grown (more : Bytes) : EStateM.Result Fault σ α → EStateM.Result Fault σ α
  | .ok a s => .ok a (Growing.grow s more)
  | .error fault s => .error fault (Growing.grow s more)

def MayGoOn : EStateM.Result Fault σ α → Prop
  | .ok _ s => Remaining.remaining s = 0
  | .error fault _ => ¬ fault.IsFinal

/-- What a run from some state has to do with the end of its text. -/
structure SettlesAt (x : EStateM Fault σ α) (s : σ) : Prop where
  grow : ∀ more, MayGoOn (x s) ∨ x (Growing.grow s more) = grown more (x s)
  atEnd : Remaining.remaining s = 0 → MayGoOn (x s)
  unterminated : ∀ fault s', x s = .error fault s' → fault.code = .unterminatedValue →
    Remaining.remaining s' = 0

def Settles (x : EStateM Fault σ α) : Prop := ∀ s, SettlesAt x s

namespace SettlesAt

variable {s s' : σ}

theorem pure (a : α) : SettlesAt (pure a : EStateM Fault σ α) s where
  grow _ := .inr rfl
  atEnd h := h
  unterminated _ _ h := by cases h

theorem of_error {x : EStateM Fault σ α} {fault : Fault} (h : x s = .error fault s')
    (hf : ¬ fault.IsFinal) (hu : fault.code = .unterminatedValue → Remaining.remaining s' = 0) :
    SettlesAt x s where
  grow _ := .inl (by rw [h]; exact hf)
  atEnd _ := by
    rw [h]
    exact hf
  unterminated f s₁ hrun hc := by
    obtain ⟨rfl, rfl⟩ := EStateM.Result.error.inj (h.symm.trans hrun)
    exact hu hc

theorem throw {fault : Fault} (hf : ¬ fault.IsFinal)
    (hu : fault.code = .unterminatedValue → Remaining.remaining s = 0) :
    SettlesAt (throw fault : EStateM Fault σ α) s := .of_error rfl hf hu

theorem of_grow {x : EStateM Fault σ α} (hs : Remaining.remaining s ≠ 0)
    (hg : ∀ more, x (Growing.grow s more) = grown more (x s))
    (hu : ∀ fault s', x s = .error fault s' → fault.code = .unterminatedValue →
      Remaining.remaining s' = 0) : SettlesAt x s where
  grow more := .inr (hg more)
  atEnd h := absurd h hs
  unterminated := hu

theorem of_fault {x : EStateM Fault σ α} {fault : Fault} (s' : σ) (hs : Remaining.remaining s ≠ 0)
    (h : x s = .error fault s')
    (hg : ∀ more, x (Growing.grow s more) = .error fault (Growing.grow s' more))
    (hu : fault.code ≠ .unterminatedValue) : SettlesAt x s := by
  refine .of_grow hs (fun more => ?_) fun f s₁ hrun hc => ?_
  · rw [h]
    exact hg more
  · obtain ⟨rfl, -⟩ := EStateM.Result.error.inj (h.symm.trans hrun)
    exact absurd hc hu

theorem of_step {x : EStateM Fault σ α} (y : EStateM Fault σ α) (s' : σ)
    (hs : Remaining.remaining s ≠ 0) (h : x s = y s')
    (hg : ∀ more, x (Growing.grow s more) = y (Growing.grow s' more)) (hy : SettlesAt y s') :
    SettlesAt x s where
  grow more := by
    rw [hg, h]
    exact hy.grow more
  atEnd h := absurd h hs
  unterminated := by
    rw [h]
    exact hy.unterminated

theorem bind {x : EStateM Fault σ α} {f : α → EStateM Fault σ β} (hx : SettlesAt x s)
    (hf : ∀ a s', x s = .ok a s' → SettlesAt (f a) s') : SettlesAt (x >>= f) s where
  grow more := by
    have h := hx.grow more
    rw [bind_run, bind_run]
    cases hrun : x s with
    | ok a s' =>
      rw [hrun] at h
      rcases h with h | h
      · exact .inl ((hf a s' hrun).atEnd h)
      · rw [h]
        exact (hf a s' hrun).grow more
    | error fault s' =>
      rw [hrun] at h
      rcases h with h | h
      · exact .inl h
      · rw [h]
        exact .inr rfl
  atEnd hs := by
    have h := hx.atEnd hs
    rw [bind_run]
    cases hrun : x s with
    | ok a s' =>
      rw [hrun] at h
      exact (hf a s' hrun).atEnd h
    | error fault s' =>
      rw [hrun] at h
      exact h
  unterminated fault s' := by
    rw [bind_run]
    cases hrun : x s with
    | ok a s₁ => exact (hf a s₁ hrun).unterminated fault s'
    | error fault' s₁ =>
      intro h
      obtain ⟨rfl, rfl⟩ := EStateM.Result.error.inj h
      exact hx.unterminated fault' s₁ hrun

theorem ite {c : Prop} [Decidable c] {x y : EStateM Fault σ α} (hx : c → SettlesAt x s)
    (hy : ¬ c → SettlesAt y s) : SettlesAt (if c then x else y) s := by
  split_ifs with h
  · exact hx h
  · exact hy h

end SettlesAt

namespace Settles

theorem pure (a : α) : Settles (pure a : EStateM Fault σ α) := fun _ => .pure a

theorem bind {x : EStateM Fault σ α} {f : α → EStateM Fault σ β} (hx : Settles x)
    (hf : ∀ a, Settles (f a)) : Settles (x >>= f) := fun s => (hx s).bind fun a s' _ => hf a s'

theorem throw {fault : Fault} (hf : ¬ fault.IsFinal) (hu : fault.code ≠ .unterminatedValue) :
    Settles (throw fault : EStateM Fault σ α) := fun _ => .throw hf fun h => absurd h hu

theorem ite {c : Prop} [Decidable c] {x y : EStateM Fault σ α} (hx : Settles x)
    (hy : Settles y) : Settles (if c then x else y) := fun s => .ite (fun _ => hx s) fun _ => hy s

end Settles
end

theorem settlesAt_nil {α : Type} {x : Scanner α} {fault : Fault} (h : x [] = .error fault [])
    (hf : ¬ fault.IsFinal) : SettlesAt x [] := .of_error h hf fun _ => rfl

theorem settlesAt_nil_ok {α : Type} {x : Scanner α} {a : α} (h : x [] = .ok a []) :
    SettlesAt x [] where
  grow _ := .inl (by rw [h]; rfl)
  atEnd _ := by
    rw [h]
    rfl
  unterminated f s' hrun _ := by
    rw [h] at hrun
    cases hrun

theorem settlesAt_error {α : Type} {x : Scanner α} (fault : Fault) {b : UInt8} {rest : Bytes}
    (h : ∀ more, x (b :: (rest ++ more)) = .error fault (b :: (rest ++ more)))
    (hu : fault.code ≠ .unterminatedValue) : SettlesAt x (b :: rest) := by
  have hrun : x (b :: rest) = .error fault (b :: rest) := by simpa using h []
  exact .of_fault (b :: rest) (Nat.succ_ne_zero _) hrun h hu

theorem settlesAt_ok {α : Type} {x : Scanner α} {text : Bytes} (a : α) (rest : Bytes)
    (hne : text ≠ []) (h : ∀ more, x (text ++ more) = .ok a (rest ++ more)) : SettlesAt x text := by
  have hrun : x text = .ok a rest := by simpa using h []
  refine .of_grow (fun hnil => hne (List.length_eq_zero_iff.1 hnil)) (fun more => ?_)
    fun f s' hf _ => ?_
  · rw [hrun]
    exact h more
  · rw [hrun] at hf
    cases hf

/-- A run of bytes that does not take all of a text ends where it did if the text goes on. -/
theorem dropWhile_append_of_ne {p : UInt8 → Bool} {text : Bytes} (h : text.dropWhile p ≠ [])
    (more : Bytes) : (text ++ more).dropWhile p = text.dropWhile p ++ more := by
  rw [List.dropWhile_append, if_neg (by simpa using h)]

theorem takeWhile_append_of_ne {p : UInt8 → Bool} {text : Bytes} (h : text.dropWhile p ≠ [])
    (more : Bytes) : (text ++ more).takeWhile p = text.takeWhile p := by
  have hall : (text.takeWhile p).length ≠ text.length := by
    intro hlen
    apply h
    have hsum := congrArg List.length (List.takeWhile_append_dropWhile (p := p) (l := text))
    rw [List.length_append] at hsum
    exact List.length_eq_zero_iff.1 (by omega)
  rw [List.takeWhile_append, if_neg hall]

namespace Scanner

theorem settles_skipSpace : Settles skipSpace := by
  intro text
  refine ⟨fun more => ?_, fun h => ?_, fun fault s' h => by cases h⟩
  · by_cases hd : text.dropWhile Byte.isSpace = []
    · exact .inl (congrArg List.length hd)
    · exact .inr (congrArg (EStateM.Result.ok _) (dropWhile_append_of_ne hd more))
  · obtain rfl := List.length_eq_zero_iff.1 h
    rfl

theorem settles_expect (wanted : UInt8) : Settles (expect wanted) := by
  intro text
  rcases text with _ | ⟨b, rest⟩
  · exact settlesAt_nil rfl (by decide)
  · by_cases hb : b = wanted
    · refine settlesAt_ok ⟨⟩ rest (List.cons_ne_nil _ _) fun more => ?_
      rw [List.cons_append, expect_run]
      exact if_pos hb
    · refine settlesAt_error (.expectedByte wanted b) (fun more => ?_) (by simp [Fault.code])
      rw [expect_run]
      exact if_neg hb

theorem isPrefixOf_append {spelling text : Bytes} (h : spelling.isPrefixOf text = true)
    (more : Bytes) : spelling.isPrefixOf (text ++ more) = true := by
  rw [List.isPrefixOf_iff_prefix] at h ⊢
  exact h.trans (List.prefix_append text more)

/-- A word that a text neither is the start of nor starts with is not spelled by a longer one. -/
theorem not_isPrefixOf_append {spelling text : Bytes} (h : ¬ spelling.isPrefixOf text = true)
    (h' : ¬ text.isPrefixOf spelling = true) (more : Bytes) :
    ¬ spelling.isPrefixOf (text ++ more) = true ∧ ¬ (text ++ more).isPrefixOf spelling = true := by
  simp only [List.isPrefixOf_iff_prefix] at h h' ⊢
  refine ⟨fun hp => ?_, fun hp => h' ((List.prefix_append text more).trans hp)⟩
  rcases List.prefix_or_prefix_of_prefix hp (List.prefix_append text more) with hp | hp
  · exact h hp
  · exact h' hp

theorem settles_word (spelling : Bytes) : Settles (word spelling) := by
  intro text
  by_cases hp : spelling.isPrefixOf text = true
  · refine ⟨fun more => .inr ?_, fun h => ?_, fun fault s' h => ?_⟩
    · have hlen := (List.isPrefixOf_iff_prefix.1 hp).length_le
      rw [word_run, word_run, if_pos hp]
      refine (if_pos (isPrefixOf_append hp more)).trans ?_
      exact congrArg (EStateM.Result.ok _) (List.drop_append_of_le_length hlen)
    · obtain rfl := List.length_eq_zero_iff.1 h
      rw [word_run, if_pos hp]
      simp [MayGoOn, Remaining.remaining]
    · rw [word_run, if_pos hp] at h
      cases h
  · by_cases hq : text.isPrefixOf spelling = true
    · have hrun : word spelling text = .error .unexpectedEnd [] := by
        rw [word_run, if_neg hp, if_pos hq]
      exact .of_error hrun (by decide) fun _ => rfl
    · rcases text with _ | ⟨b, rest⟩
      · exact absurd (by simp) hq
      · refine settlesAt_error (.expectedWord spelling) (fun more => ?_)
          (by simp [Fault.code])
        obtain ⟨h₁, h₂⟩ := not_isPrefixOf_append hp hq more
        rw [word_run, ← List.cons_append, if_neg h₁, if_neg h₂]

end Scanner

namespace StringLiteral

theorem settles_hexGroup : Settles hexGroup := by
  intro text
  by_cases hlen : 4 ≤ text.length
  · obtain ⟨a, b, c, d, rest, rfl⟩ : ∃ a b c d rest, text = a :: b :: c :: d :: rest := by
      rcases text with _ | ⟨a, _ | ⟨b, _ | ⟨c, _ | ⟨d, rest⟩⟩⟩⟩
      · simp at hlen
      · simp at hlen
      · simp at hlen
      · simp at hlen
      · exact ⟨a, b, c, d, rest, rfl⟩
    refine .of_grow (Nat.succ_ne_zero _) (fun more => ?_) fun fault s' h hc => ?_
    · rw [hexGroup_cons]
      refine (hexGroup_cons a b c d (rest ++ more)).trans ?_
      split <;> rfl
    · rw [hexGroup_cons] at h
      split at h
      · cases h
      · cases h
        cases hc
  · have hrun : hexGroup text = .error .incompleteUnicode text := by
      rcases text with _ | ⟨a, _ | ⟨b, _ | ⟨c, _ | ⟨d, rest⟩⟩⟩⟩
      · rfl
      · rfl
      · rfl
      · rfl
      · simp at hlen
    exact .of_error hrun (by decide) fun hc => by cases hc

theorem settles_lowSurrogate : Settles lowSurrogate := by
  intro text
  by_cases h : ∃ rest, text = Byte.backslash :: 0x75 :: rest
  · obtain ⟨rest, rfl⟩ := h
    refine .of_step (hexGroup >>= fun low => if isLowSurrogate low then pure low
      else throw .invalidLowSurrogate) rest (Nat.succ_ne_zero _) rfl (fun _ => rfl) ?_
    exact settles_hexGroup.bind (fun _ => .ite (.pure _) (.throw (by decide) (by decide))) rest
  · exact .of_error (lowSurrogate_missing h) (by decide) fun hc => by cases hc

theorem settles_codePoint : Settles codePoint :=
  settles_hexGroup.bind fun _ => .ite (settles_lowSurrogate.bind fun _ => .pure _)
    (.ite (.throw (by decide) (by decide)) (.pure _))

theorem settles_escape : Settles escape := by
  intro text
  rcases text with _ | ⟨b, rest⟩
  · exact settlesAt_nil rfl (by decide)
  · cases hb : escaped? b with
    | some c => exact settlesAt_ok [c] rest (List.cons_ne_nil _ _) fun more => escape_short hb (rest ++ more)
    | none =>
      by_cases hu : b = 0x75
      · subst hu
        refine .of_step (codePoint >>= fun n => pure (Utf8.encode n)) rest
          (Nat.succ_ne_zero _) rfl (fun _ => rfl) ?_
        exact settles_codePoint.bind (fun _ => .pure _) rest
      · exact settlesAt_error (.unknownEscape b) (fun more => escape_unknown hb hu (rest ++ more))
          (by simp [Fault.code])

theorem length_of_escape {text rest spelled : Bytes} (h : escape text = .ok spelled rest) :
    rest.length ≤ text.length := by
  have hc := conserves_escape text text.length le_rfl
  rw [LeavesAt, h] at hc
  exact hc

theorem length_dropWhile_cons {p : UInt8 → Bool} {text tail : Bytes} {b : UInt8}
    (h : text.dropWhile p = b :: tail) : tail.length < text.length := by
  have hle := (List.dropWhile_sublist p (l := text)).length_le
  rw [h, List.length_cons] at hle
  exact hle

theorem pieces_of_backslash {text tail : Bytes} (h : text.dropWhile isPlain = Byte.backslash :: tail)
    (fuel : Nat) :
    pieces (fuel + 1) text = (escape >>= fun spelled => pieces fuel >>= fun more =>
      pure (text.takeWhile isPlain ++ spelled ++ more)) tail := by
  simp only [pieces, bind_run, get_run, set_run, h]
  rfl

/-- A literal is not left unread because it has too many pieces. -/
theorem pieces_fuel {fuel fuel' : Nat} {text : Bytes} (h : text.length < fuel)
    (h' : text.length < fuel') : pieces fuel text = pieces fuel' text := by
  induction fuel generalizing fuel' text with
  | zero => omega
  | succ fuel ih =>
    obtain ⟨fuel', rfl⟩ := Nat.exists_eq_add_of_le' (show 1 ≤ fuel' by omega)
    cases hd : text.dropWhile isPlain with
    | nil => rw [pieces_succ, pieces_succ, hd]
    | cons b tail =>
      have hlt := length_dropWhile_cons hd
      by_cases hb : b = Byte.backslash
      · subst hb
        rw [pieces_of_backslash hd, pieces_of_backslash hd, bind_run, bind_run]
        cases he : escape tail with
        | error fault rest => rfl
        | ok spelled rest =>
          have hle := length_of_escape he
          simp only [bind_run, @ih fuel' rest (by omega) (by omega)]
      · simp only [pieces_succ, hd, if_neg hb]

theorem settlesAt_pieces {fuel : Nat} {text : Bytes} (h : text.length < fuel) :
    SettlesAt (pieces fuel) text := by
  induction fuel generalizing text with
  | zero => omega
  | succ fuel ih =>
    cases hd : text.dropWhile isPlain with
    | nil =>
      have hrun : pieces (fuel + 1) text = .error .unterminatedString [] := by rw [pieces_succ, hd]
      exact .of_error hrun (by decide) fun _ => rfl
    | cons b tail =>
      have hne : text.dropWhile isPlain ≠ [] := by simp [hd]
      have htext : text ≠ [] := by
        rintro rfl
        cases hd
      have hs : Remaining.remaining text ≠ 0 := fun hnil => htext (List.length_eq_zero_iff.1 hnil)
      have hdrop (more : Bytes) : (text ++ more).dropWhile isPlain = b :: (tail ++ more) := by
        rw [dropWhile_append_of_ne hne, hd, List.cons_append]
      have htake := takeWhile_append_of_ne hne
      by_cases hq : b = Byte.quote
      · subst hq
        refine settlesAt_ok (text.takeWhile isPlain) tail htext fun more => ?_
        rw [pieces_succ, hdrop, htake]
        rfl
      by_cases hb : b = Byte.backslash
      · subst hb
        refine .of_step _ tail hs (pieces_of_backslash hd fuel) (fun more => ?_) ?_
        · refine (pieces_of_backslash (hdrop more) fuel).trans ?_
          rw [htake]
          rfl
        · refine (settles_escape tail).bind fun spelled rest he => .bind (ih ?_) fun _ _ _ => .pure _
          have hlt := length_dropWhile_cons hd
          have hle := length_of_escape he
          omega
      · have hrun : pieces (fuel + 1) text = .error .controlByte (b :: tail) := by
          simp only [pieces_succ, hd, if_neg hq, if_neg hb]
        refine .of_fault (b :: tail) hs hrun (fun more => ?_) (by decide)
        refine (pieces_succ fuel (text ++ more)).trans ?_
        simp only [hdrop, if_neg hq, if_neg hb]
        rfl

theorem settles_content : Settles content := by
  intro text
  have h := @settlesAt_pieces (text.length + 1) text (Nat.lt_succ_self _)
  refine ⟨fun more => ?_, ?_, ?_⟩
  · -- The longer text is read with more fuel, of which the shorter one does not need any.
    have hlt : text.length < (text ++ more).length + 1 := by
      rw [List.length_append]
      omega
    rw [content_eq_pieces, pieces_fuel (Nat.lt_succ_self _) hlt]
    refine ((settlesAt_pieces hlt).grow more).imp_right fun hgrow => ?_
    rw [← hgrow]
    exact content_eq_pieces (text ++ more)
  · rw [content_eq_pieces]
    exact h.atEnd
  · rw [content_eq_pieces]
    exact h.unterminated

end StringLiteral

end JsonCodec
