import Mathlib.Data.List.Induction
import Mathlib.Data.List.Perm.Subperm

/-!
# Machinery/Worklist — marks that spread along a relation

A node is considered when a mark may spread to it: if it is not blocked and not marked it gets the mark,
and its neighbours are considered later.  Started from some seeds, exactly the nodes that the mark spreads
to get it, each of them once (`exists_loop`).
-/

namespace MLton.Worklist

variable {ν σ : Type*} (next : ν → List ν) (blocked : ν → Bool) (marked : σ → ν → Bool) (mark : σ → ν → σ)

/-- Consider a node. -/
def consider (st : σ × List ν) (v : ν) : σ × List ν :=
  if blocked v || marked st.1 v then st else (mark st.1 v, v :: st.2)

/-- Work off what is to do.  The number bounds the work. -/
def loop : ℕ → σ × List ν → Option σ
  | _, (s, []) => some s
  | 0, _ => none
  | n + 1, (s, v :: todo) => loop n ((next v).foldl (consider blocked marked mark) (s, todo))

/-- The nodes that a mark spreads to. -/
inductive Spreads (seeds : List ν) : ν → Prop
  | seed {v : ν} : v ∈ seeds → blocked v = false → Spreads seeds v
  | next {u v : ν} : Spreads seeds u → v ∈ next u → blocked v = false → Spreads seeds v

variable {next blocked marked mark} {seeds U todo l vs : List ν} {s₀ : σ} {n : ℕ} {v : ν}

/-- **What has been marked**, in which order, and what is to do. -/
structure Invariant (next : ν → List ν) (blocked : ν → Bool) (seeds U l todo : List ν) : Prop where
  nodup : l.Nodup
  todo_nodup : todo.Nodup
  todo_subset : todo ⊆ l
  subset : l ⊆ U
  spreads : ∀ v ∈ l, Spreads next blocked seeds v
  done : ∀ v ∈ l, v ∉ todo → ∀ w ∈ next v, blocked w = false → w ∈ l

section

variable (hmark : ∀ s v w, marked (mark s v) w = true ↔ w = v ∨ marked s w = true)
  (hfresh : ∀ v, marked s₀ v = false)

include hmark hfresh

theorem marked_foldl : marked (l.foldl mark s₀) v = true ↔ v ∈ l := by
  induction l using List.reverseRecOn with
  | nil => simp [hfresh]
  | append_singleton l w ih =>
    rw [List.foldl_append, List.foldl_cons, List.foldl_nil, hmark, ih]
    simp [or_comm]

/-- **Considering nodes** marks those that are not blocked. -/
theorem foldl_consider (blocked : ν → Bool) (l todo : List ν) (hsub : l ⊆ U) (hvs : vs ⊆ U) (hnodup : l.Nodup) (htodo : todo.Nodup)
    (htodol : todo ⊆ l) : ∃ l' todo', vs.foldl (consider blocked marked mark) (l.foldl mark s₀, todo) =
      (l'.foldl mark s₀, todo') ∧ l'.Nodup ∧ todo'.Nodup ∧ todo' ⊆ l' ∧ l' ⊆ U ∧ l ⊆ l' ∧ todo ⊆ todo' ∧
      l'.length + todo.length = l.length + todo'.length ∧
      (∀ v ∈ l', v ∈ l ∨ v ∈ todo' ∧ v ∈ vs ∧ blocked v = false) ∧ ∀ v ∈ vs, blocked v = false → v ∈ l' := by
  induction vs generalizing l todo with
  | nil => exact ⟨l, todo, rfl, hnodup, htodo, htodol, hsub, List.Subset.refl _, List.Subset.refl _, rfl, by simp, by simp⟩
  | cons v vs ih =>
    obtain ⟨hv, hvs⟩ := List.cons_subset.mp hvs
    rw [List.foldl_cons, consider]
    split
    · next hskip =>
      obtain ⟨l', todo', heq, hnodup', htodo', htodol', hsub', hle, htle, hlen, hnew, hall⟩ :=
        ih l todo hsub hvs hnodup htodo htodol
      refine ⟨l', todo', heq, hnodup', htodo', htodol', hsub', hle, htle, hlen, fun w hw => ?_, fun w hw hb => ?_⟩
      · exact (hnew w hw).imp_right fun h => ⟨h.1, List.mem_cons_of_mem _ h.2.1, h.2.2⟩
      · obtain rfl | hw := List.mem_cons.mp hw
        · rw [hb, Bool.false_or, marked_foldl hmark hfresh] at hskip
          exact hle hskip
        · exact hall w hw hb
    · next hskip =>
      obtain ⟨hb, hm⟩ : blocked v = false ∧ v ∉ l := by
        rw [Bool.or_eq_true, not_or, Bool.not_eq_true, marked_foldl hmark hfresh] at hskip
        exact hskip
      have hmark' : mark (l.foldl mark s₀) v = (l ++ [v]).foldl mark s₀ := by simp
      have hvtodo : v ∉ todo := fun h => hm (htodol h)
      obtain ⟨l', todo', heq, hnodup', htodo', htodol', hsub', hle, htle, hlen, hnew, hall⟩ :=
        ih (l ++ [v]) (v :: todo) (by simp [hsub, hv]) hvs
          (by simpa [List.nodup_append] using ⟨hnodup, fun w hw heq => hm (heq ▸ hw)⟩)
          (List.nodup_cons.mpr ⟨hvtodo, htodo⟩)
          (List.cons_subset.mpr ⟨by simp, fun w hw => List.mem_append_left _ (htodol hw)⟩)
      have hvl' : v ∈ l' := hle (by simp)
      have hvtodo' : v ∈ todo' := htle List.mem_cons_self
      refine ⟨l', todo', by rw [hmark', heq], hnodup', htodo', htodol', hsub',
        fun w hw => hle (List.mem_append_left _ hw), fun w hw => htle (List.mem_cons_of_mem _ hw), ?_,
        fun w hw => ?_, fun w hw hbw => ?_⟩
      · simp only [List.length_append, List.length_cons, List.length_nil] at hlen
        omega
      · obtain hw | hw := hnew w hw
        · obtain hw | hw := List.mem_append.mp hw
          · exact .inl hw
          · obtain rfl := List.mem_singleton.mp hw
            exact .inr ⟨hvtodo', List.mem_cons_self, hb⟩
        · exact .inr ⟨hw.1, List.mem_cons_of_mem _ hw.2.1, hw.2.2⟩
      · obtain rfl | hw := List.mem_cons.mp hw
        · exact hvl'
        · exact hall w hw hbw

/-- **The loop ends**, and what it has marked is closed. -/
theorem loop_invariant (hU : ∀ u ∈ U, next u ⊆ U) : ∀ {n : ℕ} {l todo : List ν},
    Invariant next blocked seeds U l todo → U.length + todo.length ≤ n + l.length →
    ∃ l', loop next blocked marked mark n (l.foldl mark s₀, todo) = some (l'.foldl mark s₀) ∧ l ⊆ l' ∧
      Invariant next blocked seeds U l' []
  | _, l, [], h, _ => ⟨l, by unfold loop; rfl, List.Subset.refl _, h⟩
  | 0, l, v :: todo, h, hn => by
      have hlen := (h.nodup.subperm h.subset).length_le
      simp only [List.length_cons] at hn
      omega
  | n + 1, l, v :: todo, h, hn => by
      obtain ⟨hvtodo, htodo⟩ := List.nodup_cons.mp h.todo_nodup
      obtain ⟨hvl, htodol⟩ := List.cons_subset.mp h.todo_subset
      obtain ⟨l', todo', heq, hnodup, htodo', htodol', hsub, hle, htle, hlen, hnew, hall⟩ :=
        foldl_consider hmark hfresh blocked l todo h.subset (hU v (h.subset hvl)) h.nodup htodo htodol
      have hinv : Invariant next blocked seeds U l' todo' := by
        refine ⟨hnodup, htodo', htodol', hsub, fun w hw => ?_, fun w hw hwtodo x hx hb => ?_⟩
        · obtain hw | ⟨-, hw, hb⟩ := hnew w hw
          · exact h.spreads w hw
          · exact .next (h.spreads v hvl) hw hb
        · obtain hwl | ⟨hw, -, -⟩ := hnew w hw
          · by_cases hwv : w = v
            · exact hall x (hwv ▸ hx) hb
            · refine hle (h.done w hwl (fun hmem => ?_) x hx hb)
              obtain rfl | hmem := List.mem_cons.mp hmem
              · exact hwv rfl
              · exact hwtodo (htle hmem)
          · exact absurd hw hwtodo
      obtain ⟨l'', hloop, hle', hinv'⟩ := loop_invariant hU (n := n) hinv (by
        simp only [List.length_cons] at hn
        omega)
      exact ⟨l'', by rw [loop, heq, hloop], fun w hw => hle' (hle hw), hinv'⟩

variable (next blocked marked mark) in
/-- **Exactly the nodes that the mark spreads to get it**, each of them once. -/
theorem exists_loop (hU : ∀ u ∈ U, next u ⊆ U) (hseeds : seeds ⊆ U) (hn : U.length ≤ n) :
    ∃ l : List ν, loop next blocked marked mark n (seeds.foldl (consider blocked marked mark) (s₀, [])) =
      some (l.foldl mark s₀) ∧ l.Nodup ∧ ∀ v, v ∈ l ↔ Spreads next blocked seeds v := by
  obtain ⟨l, todo, heq, hnodup, htodo, htodol, hsub, -, -, hlen, hnew, hall⟩ :=
    foldl_consider hmark hfresh blocked [] [] (List.nil_subset U) hseeds List.nodup_nil List.nodup_nil
      (List.Subset.refl _)
  have hinv : Invariant next blocked seeds U l todo := by
    refine ⟨hnodup, htodo, htodol, hsub, fun v hv => ?_, fun v hv hvtodo => ?_⟩
    · obtain hv | ⟨-, hv, hb⟩ := hnew v hv
      · cases hv
      · exact .seed hv hb
    · obtain hv | ⟨hv, -, -⟩ := hnew v hv
      · cases hv
      · exact absurd hv hvtodo
  obtain ⟨l', hloop, hle, hinv'⟩ := loop_invariant hmark hfresh hU (n := n) hinv (by
    simp only [List.length_nil] at hlen
    omega)
  refine ⟨l', by rw [← hloop, ← heq]; rfl, hinv'.nodup, fun v => ⟨hinv'.spreads v, fun h => ?_⟩⟩
  induction h with
  | seed hv hb => exact hle (hall _ hv hb)
  | next _ hw hb ih => exact hinv'.done _ ih List.not_mem_nil _ hw hb

end

/-! ## The loop ends -/

section

variable {P : ν → Prop} {m : σ → ℕ} (hm : ∀ s v, P v → marked s v = false → m (mark s v) < m s)

include hm

theorem foldl_consider_le (blocked : ν → Bool) : ∀ {vs : List ν} {s : σ} {todo : List ν}, (∀ v ∈ vs, P v) → (∀ v ∈ todo, P v) →
    m (vs.foldl (consider blocked marked mark) (s, todo)).1 +
        (vs.foldl (consider blocked marked mark) (s, todo)).2.length ≤ m s + todo.length ∧
      ∀ v ∈ (vs.foldl (consider blocked marked mark) (s, todo)).2, P v
  | [], s, todo, _, htodo => ⟨Nat.le_refl _, htodo⟩
  | v :: vs, s, todo, hvs, htodo => by
      obtain ⟨hv, hvs⟩ := List.forall_mem_cons.mp hvs
      rw [List.foldl_cons, consider]
      split
      · exact foldl_consider_le blocked hvs htodo
      · next hskip =>
        obtain ⟨-, hfree⟩ : blocked v = false ∧ marked s v = false := by simpa using hskip
        obtain ⟨hle, hall⟩ := foldl_consider_le blocked (s := mark s v) hvs (List.forall_mem_cons.mpr ⟨hv, htodo⟩)
        refine ⟨Nat.le_trans hle ?_, hall⟩
        have hlt := hm s v hv hfree
        simp only [List.length_cons]
        omega

/-- **The loop ends** when each mark uses something up. -/
theorem exists_loop_of_lt (hnext : ∀ u, P u → ∀ v ∈ next u, P v) : ∀ {n : ℕ} {s : σ} {todo : List ν},
    (∀ v ∈ todo, P v) → m s + todo.length ≤ n → ∃ s', loop next blocked marked mark n (s, todo) = some s'
  | _, s, [], _, _ => ⟨s, by unfold loop; rfl⟩
  | 0, s, v :: todo, _, hn => by simp at hn
  | n + 1, s, v :: todo, htodo, hn => by
      obtain ⟨hv, htodo⟩ := List.forall_mem_cons.mp htodo
      obtain ⟨hle, hall⟩ := foldl_consider_le hm blocked (s := s) (hnext v hv) htodo
      rw [loop]
      refine exists_loop_of_lt hnext hall (Nat.le_trans hle ?_)
      simp only [List.length_cons] at hn
      omega

end

end MLton.Worklist
