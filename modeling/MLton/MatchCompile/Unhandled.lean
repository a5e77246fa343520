import Mathlib.Data.Int.ModEq
import Mathlib.Data.List.Sort
import Mathlib.Data.Set.List
import Mathlib.Tactic.Linarith
import Mathlib.Tactic.Ring
import MLton.MatchCompile.Typing

/-!
# MatchCompile/Unhandled — when the constants of a column leave something out

The search through the sorted constants finds a gap exactly when there is one (`search_isEmpty_iff`), so a
column has no default exactly when its constants are all the words of their size
(`unhandledConsts_spec`).
-/

namespace MLton.MatchCompile

theorem isEmpty_append {α : Type} (xs ys : List α) : (xs ++ ys).isEmpty = (xs.isEmpty && ys.isEmpty) := by
  cases xs <;> rfl

section Search

variable {τ : Type} [DecidableEq τ] {le : τ → τ → Bool} {next prev : τ → τ}

theorem mkExampleConstRange_isEmpty {lo hi : τ} :
    (mkExampleConstRange le next prev lo hi).isEmpty = !le lo hi := by
  unfold mkExampleConstRange
  cases le lo hi with
  | false => rfl
  | true =>
    rw [if_pos rfl]
    split
    · rfl
    split
    · rfl
    split <;> rfl

/-- Without a greatest constant there is always one that is left out. -/
theorem searchLoop_ne_nil : ∀ {cs : List τ}, cs ≠ [] → searchLoop le none next prev cs ≠ []
  | [], h => absurd rfl h
  | [_], _ => List.cons_ne_nil _ _
  | _ :: _ :: _, _ =>
    List.append_ne_nil_of_right_ne_nil _ (searchLoop_ne_nil (List.cons_ne_nil _ _))

theorem search_ne_nil {min : Option τ} {cs : List τ} (h : cs ≠ []) :
    search le none min next prev cs ≠ [] := by
  have hsort : cs.mergeSort le ≠ [] := by
    rwa [ne_eq, ← List.length_eq_zero_iff, List.length_mergeSort, List.length_eq_zero_iff]
  unfold search
  cases hs : cs.mergeSort le with
  | nil => exact absurd hs hsort
  | cons c cs' =>
    have hloop : searchLoop le none next prev (c :: cs') ≠ [] :=
      searchLoop_ne_nil (List.cons_ne_nil c cs')
    cases min with
    | none => exact List.cons_ne_nil _ _
    | some min =>
      dsimp only [List.head?_cons]
      split
      · exact hloop
      · exact List.append_ne_nil_of_right_ne_nil _ hloop

end Search

section Range

variable {lo hi : ℤ} {next prev : ℤ → ℤ}

/-- The loop finds nothing exactly when everything from the first constant on is there. -/
theorem searchLoop_isEmpty_iff (hnext : ∀ i, lo ≤ i → i < hi → next i = i + 1)
    (hprev : ∀ i, lo < i → i ≤ hi → prev i = i - 1) : ∀ {c : ℤ} {cs : List ℤ},
      (c :: cs).Pairwise (· < ·) → (∀ i ∈ c :: cs, lo ≤ i ∧ i ≤ hi) →
      ((searchLoop (fun i j => decide (i ≤ j)) (some hi) next prev (c :: cs)).isEmpty ↔
        ∀ i, c ≤ i → i ≤ hi → i ∈ c :: cs)
  | c, [], _, hrange => by
    obtain ⟨hlo, hhi⟩ := hrange c List.mem_cons_self
    rw [searchLoop]
    split
    next hc => exact iff_of_true rfl fun i hi hi' => List.mem_singleton.mpr (le_antisymm (hi'.trans hc.ge) hi)
    next hc =>
      have hlt : c < hi := lt_of_le_of_ne hhi hc
      rw [mkExampleConstRange_isEmpty, hnext c hlo hlt]
      refine iff_of_false (by simpa using Int.add_one_le_of_lt hlt) fun h => ?_
      have := List.mem_singleton.mp (h (c + 1) (by omega) hlt)
      omega
  | c, c' :: cs, hsorted, hrange => by
    obtain ⟨hlo, -⟩ := hrange c List.mem_cons_self
    obtain ⟨-, hhi⟩ := hrange c' (List.mem_cons_of_mem _ List.mem_cons_self)
    obtain ⟨hc, hsorted⟩ := List.pairwise_cons.mp hsorted
    have hlt : c < c' := hc c' List.mem_cons_self
    have hrest := searchLoop_isEmpty_iff hnext hprev hsorted fun i hi => hrange i (List.mem_cons_of_mem _ hi)
    rw [searchLoop, isEmpty_append, Bool.and_eq_true, hrest, mkExampleConstRange_isEmpty,
      hnext c hlo (hlt.trans_le hhi), hprev c' (hlo.trans_lt hlt) hhi, Bool.not_eq_true',
      decide_eq_false_iff_not]
    constructor
    · rintro ⟨hgap, hall⟩ i hi hi'
      obtain rfl | hne := eq_or_ne i c
      · exact List.mem_cons_self
      · exact List.mem_cons_of_mem _ (hall i (by omega) hi')
    · refine fun hall => ⟨fun hgap => ?_, fun i hi hi' => ?_⟩
      · obtain h | h := List.mem_cons.mp (hall (c + 1) (by omega) (by omega))
        · omega
        · obtain h | h := List.mem_cons.mp h
          · omega
          · exact absurd ((List.pairwise_cons.mp hsorted).1 _ h) (by omega)
      · obtain h | h := List.mem_cons.mp (hall i (by omega) hi')
        · omega
        · exact h

/-- **The search finds nothing exactly when there is nothing to find.** -/
theorem search_isEmpty_iff (hnext : ∀ i, lo ≤ i → i < hi → next i = i + 1)
    (hprev : ∀ i, lo < i → i ≤ hi → prev i = i - 1) {cs : List ℤ} (hne : cs ≠ []) (hnodup : cs.Nodup)
    (hrange : ∀ i ∈ cs, lo ≤ i ∧ i ≤ hi) :
    (search (fun i j => decide (i ≤ j)) (some hi) (some lo) next prev cs).isEmpty ↔
      ∀ i, lo ≤ i → i ≤ hi → i ∈ cs := by
  have hmem : ∀ i, i ∈ cs.mergeSort (fun i j => decide (i ≤ j)) ↔ i ∈ cs := fun i => List.mem_mergeSort
  have hsorted : (cs.mergeSort fun i j => decide (i ≤ j)).Pairwise (· < ·) := by
    have hle := @List.pairwise_mergeSort ℤ (fun i j => decide (i ≤ j))
      (fun i j k hij hjk => by simp only [decide_eq_true_eq] at *; omega)
      (fun i j => by simp only [Bool.or_eq_true, decide_eq_true_eq]; omega) cs
    have hnd := (List.mergeSort_perm cs fun i j => decide (i ≤ j)).nodup_iff.mpr hnodup
    exact (hle.and hnd).imp fun ⟨hij, hne⟩ => lt_of_le_of_ne (of_decide_eq_true hij) hne
  unfold search
  cases hs : cs.mergeSort fun i j => decide (i ≤ j) with
  | nil =>
    refine absurd (List.eq_nil_iff_forall_not_mem.mpr fun i hi => ?_) hne
    exact List.not_mem_nil (hs ▸ (hmem i).mpr hi)
  | cons c cs' =>
    simp only [hs] at hmem hsorted
    have hrange' : ∀ i ∈ c :: cs', lo ≤ i ∧ i ≤ hi := fun i hi => hrange i ((hmem i).mp hi)
    obtain ⟨hlo, hhi⟩ := hrange' c List.mem_cons_self
    have hloop := searchLoop_isEmpty_iff hnext hprev hsorted hrange'
    dsimp only [List.head?_cons]
    split
    next hc =>
      subst hc
      simpa only [hmem] using hloop
    next hc =>
      have hlt : lo < c := lt_of_le_of_ne hlo (Ne.symm hc)
      rw [isEmpty_append, Bool.and_eq_true, mkExampleConstRange_isEmpty, hprev c hlt hhi]
      refine iff_of_false (fun h => ?_) fun h => ?_
      · have : ¬ lo ≤ c - 1 := by simpa using h.1
        omega
      · obtain h | h := List.mem_cons.mp ((hmem lo).mpr (h lo le_rfl (by omega)))
        · omega
        · exact absurd ((List.pairwise_cons.mp hsorted).1 lo h) (by omega)

end Range

/-! ## Words as integers -/

namespace WordX

variable {size : ℕ} {signed : Bool}

/-- Integers in range are kept. -/
theorem toInt_eq_self (hsize : 0 < size) {i : ℤ} (hlo : min size signed ≤ i) (hhi : i ≤ max size signed) :
    toInt size signed i = i := by
  obtain ⟨n, rfl⟩ := Nat.exists_eq_succ_of_ne_zero hsize.ne'
  have hpow : (2 : ℤ) ^ (n + 1) = 2 * 2 ^ n := by ring
  have hpos : (0 : ℤ) < 2 ^ n := by positivity
  cases signed with
  | false =>
    simp only [min, max, toInt] at *
    exact Int.emod_eq_of_lt (by simpa using hlo) (by simp at hhi; omega)
  | true =>
    simp only [min, max, toInt, if_true, Nat.succ_eq_add_one, Nat.add_sub_cancel] at *
    refine Int.bmod_eq_of_le_mul_two ?_ ?_ <;> push_cast <;> omega

/-- A word is in range. -/
theorem toInt_mem (hsize : 0 < size) (i : ℤ) :
    min size signed ≤ toInt size signed i ∧ toInt size signed i ≤ max size signed := by
  obtain ⟨n, rfl⟩ := Nat.exists_eq_succ_of_ne_zero hsize.ne'
  have hpow : (2 : ℤ) ^ (n + 1) = 2 * 2 ^ n := by ring
  have hpos : (0 : ℤ) < 2 ^ n := by positivity
  cases signed with
  | false =>
    have h := Int.emod_nonneg i (b := 2 ^ (n + 1)) (by omega)
    have h' := Int.emod_lt_of_pos i (b := 2 ^ (n + 1)) (by omega)
    simp only [min, max, toInt, Bool.false_eq_true, if_false, Nat.succ_eq_add_one]
    omega
  | true =>
    have h := Int.le_bmod (x := i) (m := 2 ^ (n + 1)) (by positivity)
    have h' := Int.bmod_lt (x := i) (m := 2 ^ (n + 1)) (by positivity)
    simp only [min, max, toInt, if_true, Nat.succ_eq_add_one, Nat.add_sub_cancel]
    push_cast at h h'
    omega

/-- The word is what its integer is modulo the number of words. -/
theorem toInt_emod (i : ℤ) : toInt size signed i % 2 ^ size = i % 2 ^ size := by
  unfold toInt
  split
  · exact_mod_cast Int.bmod_emod
  · exact Int.emod_emod_of_dvd i dvd_rfl

theorem toInt_of_emod {i j : ℤ} (h : i % 2 ^ size = j % 2 ^ size) :
    toInt size signed i = toInt size signed j := by
  unfold toInt
  split
  · have hcast : ((2 ^ size : ℕ) : ℤ) = 2 ^ size := by push_cast; rfl
    rw [← Int.emod_bmod (x := i), ← Int.emod_bmod (x := j), hcast, h]
  · exact h

/-- Words with the same integer are the same. -/
theorem toInt_inj {w w' : ℕ} (hw : w < 2 ^ size) (hw' : w' < 2 ^ size)
    (h : toInt size signed w = toInt size signed w') : w = w' := by
  have hmod : (w : ℤ) % 2 ^ size = (w' : ℤ) % 2 ^ size :=
    (toInt_emod _).symm.trans ((congrArg (· % 2 ^ size) h).trans (toInt_emod _))
  have hw1 : (w : ℤ) < 2 ^ size := by exact_mod_cast hw
  have hw2 : (w' : ℤ) < 2 ^ size := by exact_mod_cast hw'
  rw [Int.emod_eq_of_lt (by omega) hw1, Int.emod_eq_of_lt (by omega) hw2] at hmod
  exact_mod_cast hmod

end WordX

/-! ## Constants -/

theorem exists_map_eq {α β : Type} {f : α → β} {ys : List β} (h : ∀ y ∈ ys, ∃ x, f x = y) :
    ∃ xs : List α, xs.map f = ys := (Set.range_list_map f).ge h

theorem mapM_map_some {α β γ : Type} (f : α → β) (h : α → γ) {g : β → Option γ} (xs : List α)
    (hg : ∀ x, g (f x) = some (h x)) : (xs.map f).mapM g = some (xs.map h) := by
  rw [List.mapM_map, show g ∘ f = fun x => pure (h x) from funext hg]
  exact List.mapM_pure

/-- The words among the constants are of the size of the column. -/
theorem handled_word_iff {size : ℕ} {ws : List ℕ} :
    Handled (· ∈ ws.map (Ssa.Const.word size)) ↔ ∀ w < 2 ^ size, w ∈ ws := by
  constructor
  · rintro ⟨size', h⟩ w hw
    obtain ⟨_, -, hsize⟩ := List.mem_map.mp (h 0 (by positivity))
    obtain ⟨rfl, -⟩ := Ssa.Const.word.inj hsize
    obtain ⟨w', hw', h'⟩ := List.mem_map.mp (h w hw)
    exact (Ssa.Const.word.inj h').2 ▸ hw'
  · exact fun h => ⟨size, fun w hw => List.mem_map_of_mem (h w hw)⟩

theorem not_handled {cs : List Const} (h : ∀ size value, Ssa.Const.word size value ∉ cs) :
    ¬ Handled (· ∈ cs) := by
  rintro ⟨size, hall⟩
  exact h size 0 (hall 0 (by positivity))

/-- A column of words. -/
theorem unhandledConsts_word {size : ℕ} {ws : List ℕ} (hne : ws ≠ []) (hnodup : ws.Nodup)
    (hsize : 0 < size) (hws : ∀ w ∈ ws, w < 2 ^ size) (isInt : Bool) :
    ∃ b, unhandledConsts (ws.map (Ssa.Const.word size)) isInt = some b ∧
      (b = true ↔ ¬ Handled (· ∈ ws.map (Ssa.Const.word size))) := by
  have hnext : ∀ i, WordX.min size isInt ≤ i → i < WordX.max size isInt →
      WordX.toInt size isInt (i + 1) = i + 1 :=
    fun i hlo hhi => WordX.toInt_eq_self hsize (by omega) (by omega)
  have hprev : ∀ i, WordX.min size isInt < i → i ≤ WordX.max size isInt →
      WordX.toInt size isInt (i - 1) = i - 1 :=
    fun i hlo hhi => WordX.toInt_eq_self hsize (by omega) (by omega)
  let toInt := fun w : ℕ => WordX.toInt size isInt w
  have hinj : (ws.map toInt).Nodup :=
    hnodup.map_on fun w hw w' hw' h => WordX.toInt_inj (hws w hw) (hws w' hw') h
  have hrange : ∀ i ∈ ws.map toInt, WordX.min size isInt ≤ i ∧ i ≤ WordX.max size isInt := by
    intro i hi
    obtain ⟨w, -, rfl⟩ := List.mem_map.mp hi
    exact WordX.toInt_mem hsize w
  have hsearch := search_isEmpty_iff hnext hprev (by simpa using hne) hinj hrange
  have hall : (∀ i, WordX.min size isInt ≤ i → i ≤ WordX.max size isInt → i ∈ ws.map toInt) ↔
      ∀ w < 2 ^ size, w ∈ ws := by
    constructor
    · intro h w hw
      obtain ⟨hlo, hhi⟩ := @WordX.toInt_mem size isInt hsize w
      obtain ⟨w', hw', heq⟩ := List.mem_map.mp (h _ hlo hhi)
      exact WordX.toInt_inj (hws w' hw') hw heq ▸ hw'
    · intro h i hlo hhi
      have hnonneg : (0 : ℤ) ≤ i % 2 ^ size := Int.emod_nonneg i (by positivity)
      have hlt : i % 2 ^ size < 2 ^ size := Int.emod_lt_of_pos i (by positivity)
      obtain ⟨w, hw⟩ := Int.eq_ofNat_of_zero_le hnonneg
      have hmod : (w : ℤ) % 2 ^ size = i % 2 ^ size := by rw [← hw, Int.emod_emod_of_dvd i dvd_rfl]
      refine List.mem_map.mpr ⟨w, h w (by rw [hw] at hlt; exact_mod_cast hlt), ?_⟩
      exact (WordX.toInt_of_emod hmod).trans (WordX.toInt_eq_self hsize hlo hhi)
  obtain ⟨w, ws', rfl⟩ := List.exists_cons_of_ne_nil hne
  rw [handled_word_iff, ← hall, ← hsearch]
  refine ⟨!(search (fun i j => decide (i ≤ j)) (some (WordX.max size isInt)) (some (WordX.min size isInt))
    (fun i => WordX.toInt size isInt (i + 1)) (fun i => WordX.toInt size isInt (i - 1))
    ((w :: ws').map toInt)).isEmpty, ?_, by simp⟩
  rw [List.map_cons, unhandledConsts, ← List.map_cons, mapM_map_some _ toInt]
  · exact congrArg some (by rw [decide_not, Bool.decide_eq_true])
  · exact fun _ => rfl

/-- **A column has a default** unless its constants are all the words of their size. -/
theorem unhandledConsts_spec {T : Ty} {cs : List Const} (hne : cs ≠ []) (hnodup : cs.Nodup)
    (hty : ∀ c ∈ cs, constTy c T) (isInt : Bool) :
    ∃ b, unhandledConsts cs isInt = some b ∧ (b = true ↔ ¬ Handled (· ∈ cs)) := by
  obtain ⟨c, cs', hcs⟩ := List.exists_cons_of_ne_nil hne
  have hc := hty c (hcs ▸ List.mem_cons_self)
  cases T with
  | con | record => cases c <;> exact hc.elim
  | intInf =>
    obtain ⟨is, rfl⟩ : ∃ is : List ℤ, is.map Ssa.Const.intInf = cs := by
      refine exists_map_eq fun c hc => ?_
      have := hty c hc
      cases c <;> first | exact ⟨_, rfl⟩ | exact this.elim
    obtain ⟨i, is', rfl⟩ := List.exists_cons_of_ne_nil (List.map_eq_nil_iff.not.mp hne)
    refine ⟨true, ?_, iff_of_true rfl (not_handled (by simp))⟩
    rw [List.map_cons, unhandledConsts, ← List.map_cons, mapM_map_some _ id]
    · simp [search_ne_nil]
    · exact fun _ => rfl
  | vector t =>
    cases c with
    | wordVector size ws =>
      have hmap : ∃ wss : List (ℕ × List ℕ), wss.map (fun c => Ssa.Const.wordVector c.1 c.2) = cs := by
        refine exists_map_eq fun c hc => ?_
        have := hty c hc
        cases c <;> first | exact this.elim | exact ⟨(_, _), rfl⟩
      obtain ⟨wss, rfl⟩ := hmap
      refine ⟨true, ?_, iff_of_true rfl (not_handled (by simp))⟩
      rw [hcs, unhandledConsts, ← hcs, mapM_map_some _ Prod.snd]
      · simp [search_ne_nil, List.map_eq_nil_iff.not.mp hne]
      · exact fun _ => rfl
    | _ => exact hc.elim
  | word size =>
    obtain ⟨ws, rfl⟩ : ∃ ws : List ℕ, ws.map (Ssa.Const.word size) = cs := by
      refine exists_map_eq fun c hc => ?_
      have := hty c hc
      cases c <;> first | exact this.elim | exact ⟨_, congrArg (Ssa.Const.word · _) this.1⟩
    have hws : ∀ w ∈ ws, 0 < size ∧ w < 2 ^ size := fun w hw => (hty _ (List.mem_map_of_mem hw)).2
    have hne' := List.map_eq_nil_iff.not.mp hne
    obtain ⟨w, hw⟩ := List.exists_mem_of_ne_nil ws hne'
    exact unhandledConsts_word hne' hnodup.of_map (hws w hw).1 (fun w hw => (hws w hw).2) isInt

end MLton.MatchCompile
