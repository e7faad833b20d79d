import Mathlib
import JsonCodec.Proofs.Decode.Value

set_option autoImplicit false

namespace JsonCodec
open Runs

def finalState {ε σ α : Type} : EStateM.Result ε σ α → σ
  | .ok _ s => s
  | .error _ s => s

class Remaining (σ : Type) where
  remaining : σ → Nat

instance : Remaining Bytes := ⟨List.length⟩

instance : Remaining Cursor := ⟨fun cursor => cursor.rest.length⟩

def LeavesAt {ε σ α : Type} [Remaining σ] (x : EStateM ε σ α) (s : σ) (n : Nat) : Prop :=
  Remaining.remaining (finalState (x s)) ≤ n

def Conserves {ε σ α : Type} [Remaining σ] (x : EStateM ε σ α) : Prop :=
  ∀ s n, Remaining.remaining s ≤ n → LeavesAt x s n

namespace Conserves

variable {ε σ α β : Type} [Remaining σ]

theorem pure (a : α) : Conserves (pure a : EStateM ε σ α) := fun _ _ h => h

theorem throw (e : ε) : Conserves (throw e : EStateM ε σ α) := fun _ _ h => h

theorem bindAt {x : EStateM ε σ α} {f : α → EStateM ε σ β} {s : σ} {n : Nat} (hx : LeavesAt x s n)
    (hf : ∀ a, Conserves (f a)) : LeavesAt (x >>= f) s n := by
  rw [LeavesAt, bind_run]
  rw [LeavesAt] at hx
  cases h : x s with
  | ok a s' =>
    rw [h] at hx
    exact hf a s' n hx
  | error e s' =>
    rw [h] at hx
    exact hx

theorem bind {x : EStateM ε σ α} {f : α → EStateM ε σ β} (hx : Conserves x)
    (hf : ∀ a, Conserves (f a)) : Conserves (x >>= f) := fun s n h => bindAt (hx s n h) hf

theorem getBind {f : σ → EStateM ε σ β}
    (hf : ∀ s n, Remaining.remaining s ≤ n → LeavesAt (f s) s n) : Conserves (get >>= f) :=
  fun s n h => hf s n h

theorem ite {c : Prop} [Decidable c] {x y : EStateM ε σ α} (hx : Conserves x) (hy : Conserves y) :
    Conserves (if c then x else y) := by
  split_ifs
  · exact hx
  · exact hy

theorem setAt {x : EStateM ε σ α} {s s' : σ} {n : Nat} (hx : LeavesAt x s' n) :
    LeavesAt (set s' >>= fun _ => x) s n := hx

end Conserves

theorem remaining_cons {b : UInt8} {rest : Bytes} {n : Nat}
    (h : Remaining.remaining (b :: rest) ≤ n) : Remaining.remaining rest ≤ n :=
  (Nat.le_succ _).trans h

theorem remaining_dropWhile {p : UInt8 → Bool} {text : Bytes} {n : Nat}
    (h : Remaining.remaining text ≤ n) : Remaining.remaining (text.dropWhile p) ≤ n :=
  (List.dropWhile_sublist p).length_le.trans h

theorem remaining_drop {text : Bytes} {n : Nat} (k : Nat)
    (h : Remaining.remaining text ≤ n) : Remaining.remaining (text.drop k) ≤ n :=
  (List.drop_sublist k text).length_le.trans h

namespace Scanner

theorem conserves_skipSpace : Conserves skipSpace := fun _ _ h => remaining_dropWhile h

theorem conserves_expect (wanted : UInt8) : Conserves (expect wanted) := by
  refine .getBind fun text n h => ?_
  rcases text with _ | ⟨b, rest⟩
  · exact h
  · simp only
    split_ifs
    · exact remaining_cons h
    · exact h

theorem conserves_word (spelling : Bytes) : Conserves (word spelling) := by
  intro text n h
  rw [LeavesAt, word_run]
  split_ifs
  · exact remaining_drop _ h
  · exact Nat.zero_le _
  · exact h

end Scanner

namespace StringLiteral

theorem conserves_hexGroup : Conserves hexGroup := by
  intro text n h
  unfold LeavesAt
  rcases text with _ | ⟨a, _ | ⟨b, _ | ⟨c, _ | ⟨d, rest⟩⟩⟩⟩
  · exact h
  · exact h
  · exact h
  · exact h
  · rw [hexGroup_cons]
    split
    · exact remaining_cons (remaining_cons (remaining_cons (remaining_cons h)))
    · exact h

theorem conserves_lowSurrogate : Conserves lowSurrogate := by
  refine .getBind fun text n h => ?_
  split
  · exact Conserves.setAt (Conserves.bindAt
      (conserves_hexGroup _ n (remaining_cons (remaining_cons h)))
      fun _ => .ite (.pure _) (.throw _))
  · exact h

theorem conserves_codePoint : Conserves codePoint :=
  .bind conserves_hexGroup fun _ =>
    .ite (.bind conserves_lowSurrogate fun _ => .pure _) (.ite (.throw _) (.pure _))

theorem conserves_escape : Conserves escape := by
  refine .getBind fun text n h => ?_
  rcases text with _ | ⟨b, rest⟩
  · exact h
  · simp only
    split
    · exact remaining_cons h
    · split_ifs
      · exact Conserves.setAt (Conserves.bindAt (conserves_codePoint _ n (remaining_cons h))
          fun _ => .pure _)
      · exact h

theorem conserves_pieces (fuel : Nat) : Conserves (pieces fuel) := by
  induction fuel with
  | zero => exact .throw _
  | succ fuel ih =>
    refine .getBind fun text n h => ?_
    have hrest := remaining_dropWhile (p := isPlain) h
    refine Conserves.setAt ?_
    generalize text.dropWhile isPlain = rest at hrest
    rcases rest with _ | ⟨b, rest⟩
    · exact hrest
    · simp only
      split_ifs
      · exact remaining_cons hrest
      · exact Conserves.setAt (Conserves.bindAt (conserves_escape _ n (remaining_cons hrest))
          fun _ => .bind ih fun _ => .pure _)
      · exact hrest

theorem conserves_content : Conserves content := by
  intro text n h
  rw [LeavesAt, content_eq_pieces]
  exact conserves_pieces _ text n h

end StringLiteral

namespace NumberLiteral

theorem conserves_needDigit (otherwise : Fault) : Conserves (needDigit otherwise) := by
  refine .getBind fun text n h => ?_
  rcases text with _ | ⟨b, rest⟩
  · exact h
  · exact Conserves.ite (.pure _) (.throw _) _ n h

theorem conserves_take {α : Type} {f : Bytes → α × Bytes}
    (hf : ∀ text, (f text).2 = text.dropWhile Byte.isDigit) : Conserves (take f) := by
  intro text n h
  unfold LeavesAt
  change Remaining.remaining (f text).2 ≤ n
  rw [hf]
  exact remaining_dropWhile h

theorem conserves_integerPart : Conserves integerPart := by
  refine .getBind fun text n h => ?_
  split
  · exact remaining_cons h
  · exact conserves_take (fun text => congrArg Prod.snd (DigitWord.takeInteger_eq _ text)) _ n h

theorem conserves_fractionPart (w : DigitWord) : Conserves (fractionPart w) := by
  refine .getBind fun text n h => ?_
  split
  · exact Conserves.setAt (Conserves.bindAt (conserves_needDigit _ _ n (remaining_cons h))
      fun _ => .bind
        (conserves_take fun text => congrArg Prod.snd (DigitWord.takeFraction_eq w text))
        fun _ => .pure _)
  · exact h

theorem conserves_minusPart : Conserves minusPart := by
  refine .getBind fun text n h => ?_
  split
  · exact remaining_cons h
  · exact h

theorem conserves_signPart : Conserves signPart := by
  refine .getBind fun text n h => ?_
  rcases text with _ | ⟨b, rest⟩
  · exact h
  · simp only
    split_ifs
    · exact remaining_cons h
    · exact h

theorem conserves_exponentPart (extent : Extent) : Conserves (exponentPart extent) := by
  refine .getBind fun text n h => ?_
  rcases text with _ | ⟨b, rest⟩
  · exact h
  · simp only
    split_ifs
    · exact Conserves.setAt (Conserves.bindAt (conserves_signPart _ n (remaining_cons h))
        fun _ => .bind (conserves_needDigit _) fun _ => .bind
          (conserves_take fun text => congrArg Prod.snd (takeExponent_eq 0 text)) fun _ => .pure _)
    · exact h

theorem conserves_unsigned (extent : Extent) (negative : Bool) :
    Conserves (unsigned extent negative) :=
  .bind conserves_integerPart fun _ => .bind (conserves_fractionPart _) fun _ =>
    .bind (conserves_exponentPart extent) fun _ => .pure _

theorem conserves_value (o : DecodeOptions) (extent : Extent) : Conserves (value o extent) := by
  intro start n h
  have hminus := conserves_minusPart start n h
  rw [LeavesAt] at hminus ⊢
  rw [value_run]
  cases hm : minusPart start with
  | error fault rest =>
    rw [hm] at hminus
    exact hminus
  | ok negative text =>
    rw [hm] at hminus
    rcases text with _ | ⟨b, rest⟩
    · exact hminus
    · simp only
      split
      · have hword := Scanner.conserves_word infinityWord (b :: rest) n hminus
        rw [LeavesAt] at hword
        cases hw : Scanner.word infinityWord (b :: rest) with
        | error fault rest =>
          rw [hw] at hword
          exact hword
        | ok u rest =>
          rw [hw] at hword
          exact hword
      · split
        · exact hminus
        · have hdigits := conserves_unsigned extent negative (b :: rest) n hminus
          rw [LeavesAt] at hdigits
          unfold unsignedValue
          cases hu : unsigned extent negative (b :: rest) with
          | error fault rest =>
            rw [hu] at hdigits
            exact hdigits
          | ok literal rest =>
            rw [hu] at hdigits
            simp only
            split
            · exact hdigits
            · split
              · exact hdigits
              · exact h

end NumberLiteral

namespace Reader

variable {α : Type}

theorem conserves_scan {s : Scanner α} (h : Conserves s) : Conserves (scan s) := by
  intro cursor n hn
  have hs := h cursor.rest n hn
  rw [LeavesAt] at hs ⊢
  rw [scan_run]
  cases hr : s cursor.rest with
  | ok a rest => rw [hr] at hs; exact hs
  | error e rest => rw [hr] at hs; exact hs

theorem conserves_key (o : DecodeOptions) (bytes : Bytes) : Conserves (key o bytes) :=
  fun _ _ h => h

theorem conserves_peek : Conserves peek :=
  conserves_scan (.bind Scanner.conserves_skipSpace fun _ => .getBind fun text n h => by
    rcases text with _ | ⟨b, rest⟩
    · exact h
    · exact h)

theorem conserves_skip : Conserves skip :=
  conserves_scan fun _ _ h => remaining_drop 1 h

theorem conserves_items (c : Container) {item : Reader α} (h : Conserves item) (fuel : Nat) :
    Conserves (items c item fuel) := by
  induction fuel with
  | zero => exact .throw _
  | succ fuel ih =>
    exact .bind h fun _ => .bind conserves_peek fun _ =>
      .ite (.bind conserves_skip fun _ => .bind ih fun _ => .pure _)
        (.ite (.bind conserves_skip fun _ => .pure _) (.throw _))

theorem conserves_content (c : Container) {item : Reader α} (h : Conserves item) :
    Conserves (content c item) :=
  .bind conserves_peek fun _ => .ite (.bind conserves_skip fun _ => .pure _)
    (.getBind fun cursor n hn => conserves_items c h _ cursor n hn)

theorem conserves_member (o : DecodeOptions) {value : Reader Parsed} (h : Conserves value) :
    Conserves (member o value) := by
  refine .bind conserves_peek fun b => .ite (fun _ _ hn => hn) ?_
  exact .bind conserves_skip fun _ => .bind (conserves_scan StringLiteral.conserves_content)
    fun bytes => .bind (conserves_key o bytes) fun _ =>
      .bind (conserves_scan (.bind Scanner.conserves_skipSpace fun _ =>
        Scanner.conserves_expect Byte.colon)) fun _ => .bind h fun _ => .pure _

theorem conserves_named (spelling : Bytes) (v : Value) : Conserves (named spelling v) :=
  .bind (conserves_scan (Scanner.conserves_word spelling)) fun _ => .pure _

theorem conserves_dispatch (o : DecodeOptions) (extent : Extent)
    {inside : Container → Reader Parsed} (h : ∀ c, Conserves (inside c)) (b : UInt8) :
    Conserves (dispatch o extent inside b) :=
  .ite (.bind conserves_skip fun _ =>
      .bind (conserves_scan StringLiteral.conserves_content) fun _ => .pure _) <|
    .ite (.bind conserves_skip fun _ => h .object) <|
    .ite (.bind conserves_skip fun _ => h .array) <|
    .ite (conserves_named _ _) <| .ite (conserves_named _ _) <| .ite (conserves_named _ _) <|
    .ite (.bind (conserves_scan (NumberLiteral.conserves_value o extent)) fun _ => .pure _) <|
    .ite (conserves_named _ _) <| .ite (conserves_named _ _) (.throw _)

theorem conserves_inside (o : DecodeOptions) (extent : Extent) (levels : Nat) (c : Container) :
    Conserves (inside o extent levels c) := by
  induction levels generalizing c with
  | zero => exact .throw _
  | succ levels ih =>
    have hvalue : Conserves (value o extent levels) := by
      rw [value_eq]
      exact .bind conserves_peek (conserves_dispatch o extent ih)
    cases c with
    | array => exact .bind (conserves_content .array hvalue) fun _ => .pure _
    | object => exact .bind (conserves_content .object (conserves_member o hvalue)) fun _ => .pure _

theorem conserves_value (o : DecodeOptions) (extent : Extent) (levels : Nat) :
    Conserves (value o extent levels) := by
  rw [value_eq]
  exact .bind conserves_peek (conserves_dispatch o extent (conserves_inside o extent levels))

end Reader
end JsonCodec
