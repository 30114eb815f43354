import Gafq.Concat

/-! # Concatenation as a fold

A pass of `gafqV_concat` that merges a run of strings and numbers does what the binary concatenation does
to the pairs of the run, from the right: the strings that have been collected stand for the one string
that the pairs behind them would have become.  So the metamethods see the same operands in the same order.
-/

namespace Gafq

open Base (Interaction)

variable {N : Type} {strings : Interning} {number2str : N → List UInt8}

/-! ## The fold -/

/-- The operands in `n` registers. -/
def operands (regs : Registers N) (first n : Nat) : List (TValue N) := (List.range n).map fun i => regs (first + i)

theorem operands_succ (regs : Registers N) (first n : Nat) :
    operands regs first (n + 1) = operands regs first n ++ [regs (first + n)] := by
  simp [operands, List.range_succ]

@[simp] theorem length_operands (regs : Registers N) (first n : Nat) : (operands regs first n).length = n := by
  simp [operands]

/-- Registers behind the operands do not matter. -/
theorem operands_update (regs : Registers N) (v : TValue N) {first n i : Nat} (behind : first + n ≤ i) :
    operands (Function.update regs i v) first n = operands regs first n := by
  apply List.map_congr_left
  intro j inside
  rw [List.mem_range] at inside
  exact Function.update_of_ne (by omega) _ _

theorem foldConcat_cons (reg : Nat) (p : TValue N) {rest : List (TValue N)} (more : rest ≠ []) :
    foldConcat strings number2str reg (p :: rest) =
      foldConcat strings number2str (reg + 1) rest >>= binaryConcat strings number2str reg p := by
  cases rest with
  | nil => exact (more rfl).elim
  | cons q rest => rfl

/-- The last pair comes first. -/
theorem foldConcat_snoc (reg : Nat) (front : List (TValue N)) (p q : TValue N) :
    foldConcat strings number2str reg (front ++ [p, q]) =
      binaryConcat strings number2str (reg + front.length) p q >>= fun res =>
        foldConcat strings number2str reg (front ++ [res]) := by
  induction front generalizing reg with
  | nil => exact (Interaction.bind_done _).symm
  | cons x front inductionHypothesis =>
    simp only [List.cons_append]
    rw [foldConcat_cons reg x (by simp), inductionHypothesis, Interaction.bind_bind, List.length_cons,
      show reg + 1 + front.length = reg + (front.length + 1) by omega]
    congr
    funext res
    exact (foldConcat_cons reg x (by simp)).symm

theorem binaryConcat_metamethod {reg : Nat} {p q : TValue N}
    (unmerged : (p.isStringOrNumber && q.isStringOrNumber) = false) :
    binaryConcat strings number2str reg p q = metamethodPair reg p q := by
  simp [binaryConcat, unmerged]

theorem binaryConcat_merged {reg : Nat} {p q : TValue N} (convertible : p.isStringOrNumber = true)
    (convertible' : q.isStringOrNumber = true) :
    binaryConcat strings number2str reg p q = mergedPair strings number2str p q := by
  simp [binaryConcat, convertible, convertible']

/-! ## Strings and numbers -/

theorem tostring_convertible {regs : Registers N} {o : Nat} (convertible : (regs o).isStringOrNumber = true) :
    tostring strings number2str regs o = (true, Function.update regs o ((regs o).converted strings number2str)) := by
  have unchanged := Function.update_eq_self o regs
  simp only [tostring]
  cases held : regs o with
  | string a =>
    rw [held] at unchanged
    simp [TValue.converted, unchanged]
  | number n => rfl
  | _ => simp [TValue.isStringOrNumber, held] at convertible

theorem tostring_other {regs : Registers N} {o : Nat} (other : (regs o).isStringOrNumber = false) :
    tostring strings number2str regs o = (false, regs) := by
  simp only [tostring]
  cases held : regs o <;> simp_all [TValue.isStringOrNumber]

theorem svalue_converted {regs : Registers N} {o : Nat} {v : TValue N} (convertible : v.isStringOrNumber = true)
    (held : regs o = v.converted strings number2str) : svalue strings regs o = v.text strings number2str := by
  cases v <;> simp_all [svalue, TValue.text, TValue.converted, TValue.isStringOrNumber, strings.str_newlstr]

theorem concatTM_eq (regs : Registers N) (reg : Nat) :
    concatTM regs (reg + 2) =
      metamethodPair reg (regs reg) (regs (reg + 1)) >>= fun res => .done (2, Function.update regs reg res) := by
  simp only [concatTM, metamethodPair, Interaction.bind_bind]
  congr
  funext answer
  cases answer with
  | none => cases isFirst : (regs reg).isStringOrNumber <;> simp [concaterror, isFirst]
  | some res => rfl

/-- A pass over a pair that is not merged. -/
theorem concatPass_metamethod {regs : Registers N} {reg : Nat} (total : Nat)
    (unmerged : ((regs reg).isStringOrNumber && (regs (reg + 1)).isStringOrNumber) = false) :
    concatPass strings number2str total (reg + 1) regs =
      metamethodPair reg (regs reg) (regs (reg + 1)) >>= fun res => .done (2, Function.update regs reg res) := by
  rw [← concatTM_eq]
  cases isFirst : (regs reg).isStringOrNumber with
  | false => simp [concatPass, isFirst]
  | true =>
    have other : (regs (reg + 1)).isStringOrNumber = false := by simpa [isFirst] using unmerged
    simp [concatPass, isFirst, tostring_other other]

/-- A pass over strings and numbers, before it collects them. -/
theorem concatPass_merged {regs : Registers N} {reg : Nat} (total : Nat) (convertible : (regs reg).isStringOrNumber = true)
    (convertible' : (regs (reg + 1)).isStringOrNumber = true) :
    concatPass strings number2str total (reg + 1) regs =
      let regs := Function.update regs (reg + 1) ((regs (reg + 1)).converted strings number2str)
      let rest := svalue strings regs (reg + 1)
      if rest.length = 0 then .done (2, Function.update regs reg ((regs reg).converted strings number2str))
      else
        collectStrings strings number2str (reg + 2) (total - 1) 1 rest.length regs >>= fun (n, regs) =>
          .done (n, Function.update regs (reg + 2 - n) (.string (strings.newlstr (concatBuffer strings regs (reg + 2) n)))) := by
  have second : reg + 1 + 1 - 1 = reg + 1 := rfl
  have first : reg + 1 + 1 - 2 = reg := rfl
  have convertible'' : (Function.update regs (reg + 1) ((regs (reg + 1)).converted strings number2str) reg).isStringOrNumber
      = true := by
    rwa [Function.update_of_ne (by omega)]
  simp only [concatPass, first, second, convertible, Bool.not_true, Bool.false_eq_true, if_false,
    tostring_convertible convertible', tostring_convertible convertible'']
  rfl

theorem svalue_update (regs : Registers N) {o : Nat} {v : TValue N} (convertible : v.isStringOrNumber = true) :
    svalue strings (Function.update regs o (v.converted strings number2str)) o = v.text strings number2str :=
  svalue_converted convertible (Function.update_self ..)

/-- The loop takes one more operand. -/
theorem collectStrings_convertible {regs : Registers N} {top n o : Nat} (left tl : Nat) (next : top - n - 1 = o)
    (convertible : (regs o).isStringOrNumber = true) :
    collectStrings strings number2str top (left + 1) n tl regs =
      if maxSizet - tl ≤ ((regs o).text strings number2str).length then .fail (.runerror "string length overflow")
      else collectStrings strings number2str top left (n + 1) (tl + ((regs o).text strings number2str).length)
        (Function.update regs o ((regs o).converted strings number2str)) := by
  simp only [collectStrings, next, tostring_convertible convertible, svalue_update _ convertible]

theorem collectStrings_other {regs : Registers N} {top n o : Nat} (left tl : Nat) (next : top - n - 1 = o)
    (other : (regs o).isStringOrNumber = false) :
    collectStrings strings number2str top (left + 1) n tl regs = .done (n, regs) := by
  simp only [collectStrings, next, tostring_other other]

/-! ## Runs -/

theorem concatBuffer_update (regs : Registers N) (v : TValue N) {top n o : Nat} (below : o + n < top) :
    concatBuffer strings (Function.update regs o v) top n = concatBuffer strings regs top n := by
  induction n with
  | zero => rfl
  | succ n inductionHypothesis =>
    have kept : Function.update regs o v (top - (n + 1)) = regs (top - (n + 1)) := Function.update_of_ne (by omega) _ _
    rw [concatBuffer, concatBuffer, inductionHypothesis (by omega), svalue, svalue, kept]

/-- The string that `n` collected operands are about to become. -/
def collected (strings : Interning) (regs : Registers N) (top n : Nat) : TValue N :=
  .string (strings.newlstr (concatBuffer strings regs top n))

/-- To collect operands and go on is to fold, if to go on with what has been collected is. -/
theorem collectStrings_eq_fold {first top : Nat} {rest : Nat × Registers N → Interaction (TagRequest N) (TValue N) (ConcatError N) (TValue N)}
    (left n : Nat) (regs : Registers N) (all : top = first + left + n) (nonempty : (concatBuffer strings regs top n).length ≠ 0)
    (goOn : ∀ n' regs', n ≤ n' → n' ≤ left + n → rest (n', regs') =
      foldConcat strings number2str first (operands regs' first (left + n - n') ++ [collected strings regs' top n'])) :
    collectStrings strings number2str top left n (concatBuffer strings regs top n).length regs >>= rest =
      foldConcat strings number2str first (operands regs first left ++ [collected strings regs top n]) := by
  induction left generalizing n regs with
  | zero =>
    have now := goOn n regs (le_refl n) (by omega)
    rwa [show 0 + n - n = 0 by omega] at now
  | succ left inductionHypothesis =>
    have next : top - n - 1 = first + left := by omega
    cases convertible : (regs (first + left)).isStringOrNumber with
    | false =>
      have now := goOn n regs (le_refl n) (by omega)
      rw [collectStrings_other _ _ next convertible]
      rwa [Nat.add_sub_cancel] at now
    | true =>
      have text : (collected strings regs top n).text strings number2str = concatBuffer strings regs top n := strings.str_newlstr _
      rw [collectStrings_convertible _ _ next convertible, operands_succ, List.append_assoc, List.singleton_append, foldConcat_snoc,
        binaryConcat_merged convertible rfl, mergedPair, text]
      simp only [nonempty, if_false]
      split
      · rfl
      · -- one more operand has been collected, which has become a string in place
        have grown : concatBuffer strings (Function.update regs (first + left) ((regs (first + left)).converted strings number2str))
            top (n + 1) = (regs (first + left)).text strings number2str ++ concatBuffer strings regs top n := by
          rw [concatBuffer, concatBuffer_update _ _ (by omega), show top - (n + 1) = first + left by omega, svalue_update _ convertible]
        have step := inductionHypothesis (n + 1)
          (Function.update regs (first + left) ((regs (first + left)).converted strings number2str)) (by omega)
          (by rw [grown, List.length_append]; omega)
          (fun n' regs' least most => by rw [goOn n' regs' (by omega) (by omega), show left + 1 + n = left + (n + 1) by omega])
        rw [collected, grown, operands_update _ _ (le_refl _), List.length_append, Nat.add_comm (List.length _)] at step
        exact step

/-- Each pass does what the fold does. -/
theorem concatLoop_eq_fold {first : Nat} (passes total : Nat) (regs : Registers N) (pair : 2 ≤ total) (enough : total ≤ passes + 1) :
    (concatLoop strings number2str passes total (first + total - 1) regs >>= fun regs => .done (regs first)) =
      foldConcat strings number2str first (operands regs first total) := by
  induction passes generalizing total regs with
  | zero => omega
  | succ passes inductionHypothesis =>
    obtain ⟨m, rfl⟩ : ∃ m, total = m + 2 := ⟨total - 2, by omega⟩
    -- what is left to do after a pass that has handled `n` operands
    have goOn (n : Nat) (regs : Registers N) (least : 2 ≤ n) (most : n ≤ m + 2) :
        ((if 1 < m + 2 - (n - 1) then concatLoop strings number2str passes (m + 2 - (n - 1)) (first + m + 1 - (n - 1)) regs
          else .done regs) >>= fun regs => .done (regs first)) =
        foldConcat strings number2str first (operands regs first (m + 2 - (n - 1))) := by
      split
      · next more =>
        rw [show first + m + 1 - (n - 1) = first + (m + 2 - (n - 1)) - 1 by omega]
        exact inductionHypothesis _ regs more (by omega)
      · rw [show m + 2 - (n - 1) = 0 + 1 by omega, operands_succ]
        rfl
    rw [operands_succ, operands_succ, List.append_assoc, List.singleton_append, foldConcat_snoc, length_operands,
      show first + (m + 1) = first + m + 1 by omega]
    simp only [concatLoop, Interaction.bind_bind, show first + (m + 2) - 1 = first + m + 1 by omega]
    cases convertible : (regs (first + m)).isStringOrNumber && (regs (first + m + 1)).isStringOrNumber with
    | false =>
      rw [concatPass_metamethod _ convertible, binaryConcat_metamethod convertible, Interaction.bind_bind]
      congr
      funext res
      -- the result is the last of the operands that are left
      have now := goOn 2 (Function.update regs (first + m) res) (le_refl 2) (by omega)
      rw [show m + 2 - (2 - 1) = m + 1 by omega, operands_succ, operands_update _ _ (le_refl _), Function.update_self] at now
      exact now
    | true =>
      rw [Bool.and_eq_true] at convertible
      rw [concatPass_merged _ convertible.1 convertible.2, binaryConcat_merged convertible.1 convertible.2, mergedPair]
      generalize held : Function.update regs (first + m + 1) _ = regs'
      have front : regs' (first + m) = regs (first + m) := by simp [← held]
      have before : operands regs' first m = operands regs first m := by
        rw [← held]
        exact operands_update _ _ (by omega)
      have second : svalue strings regs' (first + m + 1) = (regs (first + m + 1)).text strings number2str := by
        apply svalue_converted convertible.2
        simp [← held]
      simp only [second, front]
      split
      · have now := goOn 2 (Function.update regs' (first + m) ((regs (first + m)).converted strings number2str)) (le_refl 2)
          (by omega)
        rw [show m + 2 - (2 - 1) = m + 1 by omega, operands_succ, operands_update _ _ (le_refl _), Function.update_self,
          before] at now
        exact now
      · rw [show m + 2 - 1 = m + 1 by omega, collectStrings_convertible m _ (show first + m + 2 - 1 - 1 = first + m by omega)
          (front ▸ convertible.1), front]
        split
        · rfl
        · generalize held' : Function.update regs' (first + m) _ = regs''
          have both : concatBuffer strings regs'' (first + m + 2) 2 =
              (regs (first + m)).text strings number2str ++ (regs (first + m + 1)).text strings number2str := by
            have inFront : svalue strings regs'' (first + m) = (regs (first + m)).text strings number2str := by
              rw [← held']
              exact svalue_update _ convertible.1
            have behind : svalue strings regs'' (first + m + 1) = svalue strings regs' (first + m + 1) := by
              simp [svalue, ← held']
            simp [concatBuffer, inFront, behind, second]
          have before' : operands regs'' first m = operands regs first m := by
            rw [← held', operands_update _ _ (le_refl _), before]
          rw [Nat.add_comm (List.length _), ← List.length_append, ← both, Interaction.bind_bind]
          apply (collectStrings_eq_fold m 2 regs'' rfl _ _).trans
          · rw [collected, both, before']
            rfl
          · rw [both, List.length_append]
            omega
          · intro n regs least most
            have now := goOn n (Function.update regs (first + m + 2 - n) (collected strings regs (first + m + 2) n)) least most
            rw [show m + 2 - (n - 1) = m + 2 - n + 1 by omega, operands_succ, operands_update _ _ (by omega),
              show first + (m + 2 - n) = first + m + 2 - n by omega, Function.update_self] at now
            simp only [show m + 2 - n + 1 = m + 2 - (n - 1) by omega] at now
            exact now

/-- `gafqV_concat` makes the same string or error and calls the same metamethods on the same operands as the binary
concatenation that is folded from the right. -/
theorem concat_eq_foldConcat (regs : Registers N) (first n : Nat) :
    (concat strings number2str (n + 2) (first + n + 1) regs >>= fun regs => .done (regs first)) =
      foldConcat strings number2str first ((List.range (n + 2)).map fun i => regs (first + i)) :=
  concatLoop_eq_fold (n + 2) (n + 2) regs (Nat.le_add_left 2 n) (Nat.le_succ _)

end Gafq
