import MLton.Machinery.Fold

/-!
# Machinery/Dfs — depth-first search with actions

`visit` walks a graph given by its successor lists, running `pre` on the way into a node and `post`
on the way out, over a client state.

* `visit_inv` — the invariant rule: what `pre` and `post` keep, the search keeps.
* `mem_search_iff` — from the empty set of visited nodes the search visits exactly the nodes
  reachable from the root.
* `search_postorder` — a node is left before some node that points at it, and the root last.
-/

namespace MLton.Dfs

variable {ν σ : Type*} [DecidableEq ν]

/-- One call of the search: the nodes visited so far, latest first, and the client's state.  The
number bounds the depth of the recursion. -/
def visit (succ : ν → List ν) (pre post : σ → ν → σ) : ℕ → List ν × σ → ν → List ν × σ
  | 0, st, _ => st
  | n + 1, st, v =>
    if v ∈ st.1 then st
    else
      let st := (succ v).foldl (visit succ pre post n) (v :: st.1, pre st.2 v)
      (st.1, post st.2 v)

/-- The search from a root. -/
def search (succ : ν → List ν) (pre post : σ → ν → σ) (n : ℕ) (s : σ) (root : ν) : List ν × σ :=
  visit succ pre post n ([], s) root

variable {succ : ν → List ν} {pre post : σ → ν → σ}

theorem visit_of_mem {n : ℕ} {st : List ν × σ} {v : ν} (h : v ∈ st.1) :
    visit succ pre post n st v = st := by
  cases n <;> simp [visit, h]

theorem visit_succ_of_notMem {n : ℕ} {st : List ν × σ} {v : ν} (h : v ∉ st.1) :
    visit succ pre post (n + 1) st v =
      (((succ v).foldl (visit succ pre post n) (v :: st.1, pre st.2 v)).1,
        post ((succ v).foldl (visit succ pre post n) (v :: st.1, pre st.2 v)).2 v) := by
  simp [visit, h]

omit [DecidableEq ν] in
/-- A fold of searches forgets no visited node. -/
theorem subset_foldl {g : List ν × σ → ν → List ν × σ} (hg : ∀ st v, st.1 ⊆ (g st v).1)
    (vs : List ν) (st : List ν × σ) : st.1 ⊆ (vs.foldl g st).1 :=
  (Fold.foldl_inv (I := fun _ => True) (T := fun a b => a.1 ⊆ b.1)
    (fun _ => List.Subset.refl _) (fun _ _ _ h1 h2 => List.Subset.trans h1 h2) vs st
    (fun a b _ _ => ⟨trivial, hg a b⟩) trivial).2

theorem subset_visit : ∀ (n : ℕ) (st : List ν × σ) (v : ν),
    st.1 ⊆ (visit succ pre post n st v).1
  | 0, _, _ => List.Subset.refl _
  | n + 1, st, v => by
    by_cases h : v ∈ st.1
    · rw [visit_of_mem h]
      exact List.Subset.refl _
    · rw [visit_succ_of_notMem h]
      exact fun x hx => subset_foldl (subset_visit n) _ _ (List.mem_cons_of_mem _ hx)

/-! ## The invariant rule -/

/-- A node may be entered: it is unvisited, and it is the root or some visited node points at it. -/
def Enterable (succ : ν → List ν) (root : ν) (vis : List ν) (v : ν) : Prop :=
  v ∉ vis ∧ (v = root ∨ ∃ u ∈ vis, v ∈ succ u)

/-- **What entering and leaving keep, the search keeps.** -/
theorem visit_inv {root : ν} {I : List ν → σ → Prop}
    (hpre : ∀ vis s v, I vis s → Enterable succ root vis v → I (v :: vis) (pre s v))
    (hpost : ∀ vis s v, I vis s → v ∈ vis → I vis (post s v)) :
    ∀ (n : ℕ) (st : List ν × σ) (v : ν), I st.1 st.2 → (v = root ∨ ∃ u ∈ st.1, v ∈ succ u) →
      I (visit succ pre post n st v).1 (visit succ pre post n st v).2
  | 0, _, _, h, _ => h
  | n + 1, st, v, h, hv => by
    by_cases hmem : v ∈ st.1
    · rwa [visit_of_mem hmem]
    · rw [visit_succ_of_notMem hmem]
      obtain ⟨⟨hI, hvis⟩, -⟩ := Fold.foldl_inv (g := visit succ pre post n)
        (I := fun a => I a.1 a.2 ∧ v ∈ a.1) (T := fun _ _ => True) (fun _ => trivial)
        (fun _ _ _ _ _ => trivial) (succ v) (v :: st.1, pre st.2 v)
        (fun a b hb ha => ⟨⟨visit_inv hpre hpost n a b ha.1 (Or.inr ⟨v, ha.2, hb⟩),
          subset_visit n a b ha.2⟩, trivial⟩)
        ⟨hpre _ _ _ h ⟨hmem, hv⟩, List.mem_cons_self ..⟩
      exact hpost _ _ _ hI hvis

/-- The invariant rule for a search from the empty set. -/
theorem search_inv {root : ν} {I : List ν → σ → Prop} {n : ℕ} {s : σ}
    (hinit : I [] s)
    (hpre : ∀ vis s v, I vis s → Enterable succ root vis v → I (v :: vis) (pre s v))
    (hpost : ∀ vis s v, I vis s → v ∈ vis → I vis (post s v)) :
    I (search succ pre post n s root).1 (search succ pre post n s root).2 :=
  visit_inv hpre hpost n ([], s) root hinit (Or.inl rfl)

/-! ## Searches side by side -/

/-- What one search does, another one whose state is a view of its state does. -/
theorem visit_map {τ : Type*} {φ : σ → τ} {pre' post' : τ → ν → τ} (hpre : ∀ s v, φ (pre s v) = pre' (φ s) v)
    (hpost : ∀ s v, φ (post s v) = post' (φ s) v) : ∀ (n : ℕ) (st : List ν × σ) (v : ν),
      visit succ pre' post' n (st.1, φ st.2) v =
        ((visit succ pre post n st v).1, φ (visit succ pre post n st v).2)
  | 0, _, _ => rfl
  | n + 1, st, v => by
    by_cases hmem : v ∈ st.1
    · rw [visit_of_mem hmem]
      exact visit_of_mem hmem
    · have hfold : ∀ (ws : List ν) (a : List ν × σ), ws.foldl (visit succ pre' post' n) (a.1, φ a.2) =
          ((ws.foldl (visit succ pre post n) a).1, φ (ws.foldl (visit succ pre post n) a).2) := by
        intro ws
        induction ws with
        | nil => exact fun _ => rfl
        | cons w ws ih =>
          intro a
          rw [List.foldl_cons, List.foldl_cons, visit_map hpre hpost n a w]
          exact ih _
      have hleft : visit succ pre' post' (n + 1) (st.1, φ st.2) v = _ := visit_succ_of_notMem hmem
      rw [visit_succ_of_notMem hmem, hleft, ← hpre, hfold (succ v) (v :: st.1, pre st.2 v), hpost]

theorem search_map {τ : Type*} {φ : σ → τ} {pre' post' : τ → ν → τ} (hpre : ∀ s v, φ (pre s v) = pre' (φ s) v)
    (hpost : ∀ s v, φ (post s v) = post' (φ s) v) (n : ℕ) (s : σ) (root : ν) :
    search succ pre' post' n (φ s) root =
      ((search succ pre post n s root).1, φ (search succ pre post n s root).2) :=
  visit_map hpre hpost n ([], s) root

/-! ## The search visits what is reachable -/

/-- An edge of the graph. -/
def Edge (succ : ν → List ν) (u v : ν) : Prop := v ∈ succ u

omit [DecidableEq ν] in
/-- A node reachable from `root` through the visited nodes only. -/
theorem reachable_of_enterable {root : ν} {vis : List ν} {v : ν}
    (hvis : ∀ u ∈ vis, Relation.ReflTransGen (Edge succ) root u)
    (h : Enterable succ root vis v) : Relation.ReflTransGen (Edge succ) root v := by
  rcases h.2 with rfl | ⟨u, hu, huv⟩
  · exact .refl
  · exact (hvis u hu).tail huv

/-- How many nodes of the universe are still unvisited. -/
def unvisited (U : List ν) (vis : List ν) : ℕ := (U.filter (· ∉ vis)).length

theorem unvisited_anti {U : List ν} {vis vis' : List ν} (h : vis ⊆ vis') :
    unvisited U vis' ≤ unvisited U vis :=
  List.Sublist.length_le (List.monotone_filter_right U fun x hx => by
    simp only [decide_eq_true_eq] at hx ⊢
    exact fun hx' => hx (h hx'))

theorem unvisited_cons_lt {U vis : List ν} {v : ν} (hU : v ∈ U) (hv : v ∉ vis) :
    unvisited U (v :: vis) < unvisited U vis := by
  have hle : unvisited U (v :: vis) ≤ unvisited U vis :=
    unvisited_anti fun x hx => List.mem_cons_of_mem _ hx
  refine Nat.lt_of_le_of_ne hle fun heq => ?_
  have hsub : (U.filter (· ∉ v :: vis)).Sublist (U.filter (· ∉ vis)) :=
    List.monotone_filter_right U fun x hx => by
      simp only [decide_eq_true_eq] at hx ⊢
      exact fun hx' => hx (List.mem_cons_of_mem _ hx')
  have hfilter := hsub.eq_of_length heq
  have hmem : v ∈ U.filter (· ∉ vis) := List.mem_filter.mpr ⟨hU, by simpa using hv⟩
  rw [← hfilter] at hmem
  simpa using (List.mem_filter.mp hmem).2

/-- **With enough depth a node is visited, and so are the successors of every node visited on the
way.** -/
theorem visit_closed {U : List ν} (hU : ∀ u ∈ U, succ u ⊆ U) :
    ∀ (n : ℕ) (st : List ν × σ) (v : ν), unvisited U st.1 < n → v ∈ U →
      v ∈ (visit succ pre post n st v).1 ∧
        ∀ u ∈ (visit succ pre post n st v).1, u ∉ st.1 →
          succ u ⊆ (visit succ pre post n st v).1
  | 0, _, _, hn, _ => absurd hn (Nat.not_lt_zero _)
  | n + 1, st, v, hn, hv => by
    by_cases hmem : v ∈ st.1
    · rw [visit_of_mem hmem]
      exact ⟨hmem, fun u hu hnot => absurd hu hnot⟩
    · rw [visit_succ_of_notMem hmem]
      have hlt := unvisited_cons_lt hv hmem
      have key : ∀ (ws : List ν) (a : List ν × σ), ws ⊆ U → unvisited U a.1 < n →
          ws ⊆ (ws.foldl (visit succ pre post n) a).1 ∧
            a.1 ⊆ (ws.foldl (visit succ pre post n) a).1 ∧
            ∀ u ∈ (ws.foldl (visit succ pre post n) a).1, u ∉ a.1 →
              succ u ⊆ (ws.foldl (visit succ pre post n) a).1 := by
        intro ws
        induction ws with
        | nil => exact fun a _ _ => ⟨by simp, by simp, fun u hu hnot => absurd hu hnot⟩
        | cons w ws ih =>
          intro a hws ha
          obtain ⟨hw, hwcl⟩ := visit_closed hU n a w ha (hws (by simp))
          have hsub : a.1 ⊆ (visit succ pre post n a w).1 := subset_visit n a w
          obtain ⟨h1, h2, h3⟩ := ih (visit succ pre post n a w)
            (fun x hx => hws (List.mem_cons_of_mem _ hx)) (Nat.lt_of_le_of_lt (unvisited_anti hsub) ha)
          refine ⟨?_, List.Subset.trans hsub h2, fun u hu hnot => ?_⟩
          · rintro x (_ | ⟨_, hx⟩)
            · exact h2 hw
            · exact h1 hx
          · by_cases huw : u ∈ (visit succ pre post n a w).1
            · exact List.Subset.trans (hwcl u huw hnot) h2
            · exact h3 u hu huw
      obtain ⟨h1, h2, h3⟩ := key (succ v) (v :: st.1, pre st.2 v) (hU v hv)
        (Nat.lt_of_lt_of_le hlt (Nat.lt_succ_iff.mp hn))
      refine ⟨h2 (List.mem_cons_self ..), fun u hu hnot => ?_⟩
      by_cases huv : u = v
      · subst huv
        exact h1
      · exact h3 u hu fun hcons => (List.mem_cons.mp hcons).elim huv hnot

/-- **The search visits exactly the nodes reachable from its root.** -/
theorem mem_search_iff {U : List ν} (hU : ∀ u ∈ U, succ u ⊆ U) {n : ℕ} (hn : U.length < n) {s : σ}
    {root v : ν} (hroot : root ∈ U) :
    v ∈ (search succ pre post n s root).1 ↔ Relation.ReflTransGen (Edge succ) root v := by
  constructor
  · refine search_inv (I := fun vis _ => ∀ u ∈ vis, Relation.ReflTransGen (Edge succ) root u)
      (by simp) (fun vis s w h hw u hu => ?_) (fun vis s w h _ => h) v
    rcases List.mem_cons.mp hu with rfl | hu
    · exact reachable_of_enterable h hw
    · exact h u hu
  · intro h
    have hlt : unvisited U ([] : List ν) < n := Nat.lt_of_le_of_lt (List.length_filter_le _ _) hn
    obtain ⟨hr, hcl⟩ : root ∈ (search succ pre post n s root).1 ∧
        ∀ u ∈ (search succ pre post n s root).1, u ∉ ([] : List ν) →
          succ u ⊆ (search succ pre post n s root).1 := visit_closed hU n ([], s) root hlt hroot
    induction h with
    | refl => exact hr
    | tail _ huv ih => exact hcl _ ih (by simp) huv

/-! ## Postorder -/

/-- Each entry of the list is among `ws`, or a later one points at it. -/
def Ranked (succ : ν → List ν) (ws : List ν) : List ν → Prop
  | [] => True
  | x :: l => (x ∈ ws ∨ ∃ u ∈ l, x ∈ succ u) ∧ Ranked succ ws l

omit [DecidableEq ν] in
theorem Ranked.mono {ws ws' : List ν} (hws : ∀ x ∈ ws, x ∈ ws') : ∀ {l : List ν},
    Ranked succ ws l → Ranked succ ws' l
  | [], _ => trivial
  | _ :: _, ⟨hx, h⟩ => ⟨hx.imp_left (hws _), h.mono hws⟩

omit [DecidableEq ν] in
theorem Ranked.append {ws : List ν} : ∀ {l l' : List ν}, Ranked succ ws l → Ranked succ ws l' →
    Ranked succ ws (l ++ l')
  | [], _, _, h' => h'
  | _ :: _, _, ⟨hx, h⟩, h' =>
    ⟨hx.imp_right fun ⟨u, hu, hxu⟩ => ⟨u, List.mem_append_left _ hu, hxu⟩, h.append h'⟩

omit [DecidableEq ν] in
/-- The node behind its successors. -/
theorem Ranked.snoc {v : ν} : ∀ {l : List ν}, Ranked succ (succ v) l → Ranked succ [v] (l ++ [v])
  | [], _ => ⟨.inl (by simp), trivial⟩
  | _ :: _, ⟨hx, h⟩ => by
    refine ⟨.inr ?_, h.snoc⟩
    obtain hxv | ⟨u, hu, hxu⟩ := hx
    · exact ⟨v, by simp, hxv⟩
    · exact ⟨u, List.mem_append_left _ hu, hxu⟩

omit [DecidableEq ν] in
theorem Ranked.exists_later {ws : List ν} {l : List ν} (h : Ranked succ ws l) {x : ν} (hx : x ∈ l)
    (hws : x ∉ ws) : ∃ l₁ l₂ u, l = l₁ ++ x :: l₂ ∧ u ∈ l₂ ∧ x ∈ succ u := by
  induction l with
  | nil => cases hx
  | cons z l ih =>
    by_cases hxl : x ∈ l
    · obtain ⟨l₁, l₂, u, rfl, hu, hxu⟩ := ih h.2 hxl
      exact ⟨z :: l₁, l₂, u, rfl, hu, hxu⟩
    · obtain rfl : x = z := (List.mem_cons.mp hx).resolve_right hxl
      obtain ⟨u, hu, hxu⟩ := h.1.resolve_left hws
      exact ⟨[], l, u, rfl, hu, hxu⟩

/-- What a piece of the search adds to the list of nodes left. -/
structure Left (succ : ν → List ν) (ws : List ν) (st st' : List ν × List ν) (new : List ν) : Prop where
  left : st'.2 = st.2 ++ new
  visited : ∀ x, x ∈ st'.1 ↔ x ∈ st.1 ∨ x ∈ new
  nodup : new.Nodup
  fresh : ∀ x ∈ new, x ∉ st.1
  ranked : Ranked succ ws new

/-- A client that lists the nodes in the order they are left. -/
abbrev leave : List ν → ν → List ν := fun ns v => ns ++ [v]

omit [DecidableEq ν] in
theorem Left.trans {ws : List ν} {st st' st'' : List ν × List ν} {l l' : List ν}
    (h : Left succ ws st st' l) (h' : Left succ ws st' st'' l') : Left succ ws st st'' (l ++ l') where
  left := by rw [h'.left, h.left, List.append_assoc]
  visited x := by rw [h'.visited, h.visited, List.mem_append, or_assoc]
  nodup := List.nodup_append'.mpr ⟨h.nodup, h'.nodup, fun x hx hx' =>
    h'.fresh x hx' ((h.visited x).mpr (.inr hx))⟩
  fresh x hx hst := by
    obtain hx | hx := List.mem_append.mp hx
    · exact h.fresh x hx hst
    · exact h'.fresh x hx ((h.visited x).mpr (.inl hst))
  ranked := h.ranked.append h'.ranked

omit [DecidableEq ν] in
theorem left_foldl {g : List ν × List ν → ν → List ν × List ν}
    (hg : ∀ st v, ∃ new, Left succ [v] st (g st v) new) : ∀ (ws us : List ν) (st : List ν × List ν),
    (∀ x ∈ us, x ∈ ws) → ∃ new, Left succ ws st (us.foldl g st) new
  | _, [], st, _ => ⟨[], by simp, by simp, .nil, by simp, trivial⟩
  | ws, u :: us, st, hus => by
    obtain ⟨l, hl⟩ := hg st u
    obtain ⟨l', hl'⟩ := left_foldl hg ws us (g st u) fun x hx => hus x (List.mem_cons_of_mem _ hx)
    have hu : ∀ x ∈ [u], x ∈ ws := fun x hx => hus x (by rw [List.mem_singleton.mp hx]; simp)
    exact ⟨l ++ l', .trans { hl with ranked := hl.ranked.mono hu } hl'⟩

theorem left_visit : ∀ (n : ℕ) (st : List ν × List ν) (v : ν),
    ∃ new, Left succ [v] st (visit succ (fun ns _ => ns) leave n st v) new ∧
      (0 < n → v ∉ st.1 → ∃ l, new = l ++ [v])
  | 0, st, v => ⟨[], ⟨by simp [visit], by simp [visit], .nil, by simp, trivial⟩, by simp⟩
  | n + 1, st, v => by
    by_cases hv : v ∈ st.1
    · rw [visit_of_mem hv]
      exact ⟨[], ⟨by simp, by simp, .nil, by simp, trivial⟩, fun _ h => absurd hv h⟩
    · rw [visit_succ_of_notMem hv]
      obtain ⟨l, hl⟩ : ∃ new, Left succ (succ v) (v :: st.1, st.2)
          ((succ v).foldl (visit succ (fun ns _ => ns) leave n) (v :: st.1, st.2)) new := left_foldl
        (fun st v => (left_visit n st v).imp fun _ h => h.1) (succ v) (succ v) (v :: st.1, st.2)
        (fun _ => id)
      refine ⟨l ++ [v], ⟨?_, fun x => ?_, ?_, ?_, hl.ranked.snoc⟩, fun _ _ => ⟨l, rfl⟩⟩
      · rw [← List.append_assoc, ← hl.left]
      · rw [hl.visited]
        simp only [List.mem_cons, List.mem_append, List.not_mem_nil, or_false]
        tauto
      · refine List.nodup_append'.mpr ⟨hl.nodup, List.nodup_singleton v, fun x hx hxv => ?_⟩
        obtain rfl := List.mem_singleton.mp hxv
        exact hl.fresh x hx (List.mem_cons_self ..)
      · intro x hx hst
        obtain hx | hx := List.mem_append.mp hx
        · exact hl.fresh x hx (List.mem_cons_of_mem _ hst)
        · rw [List.mem_singleton.mp hx] at hst
          exact hv hst

/-- **The postorder**: the root comes last, and every other node before one that points at it. -/
theorem search_postorder (n : ℕ) (root : ν) :
    ∃ l, (search succ (fun ns _ => ns) leave (n + 1) [] root).2 = l ++ [root] ∧ (l ++ [root]).Nodup ∧
      Ranked succ [root] (l ++ [root]) ∧
      ∀ x, x ∈ (search succ (fun ns _ => ns) leave (n + 1) [] root).1 ↔ x ∈ l ++ [root] := by
  obtain ⟨new, h, hlast⟩ := @left_visit _ _ succ (n + 1) ([], []) root
  obtain ⟨l, rfl⟩ := hlast (Nat.succ_pos n) (by simp)
  exact ⟨l, by simpa [search] using h.left, h.nodup, h.ranked, fun x => (h.visited x).trans (by simp)⟩

end MLton.Dfs
