import Mathlib.Data.List.Induction
import MLton.Machinery.Dfs
import MLton.Ssa.Tree

/-!
# Ssa/OpenRegions — the regions open along a path

A *site* is a statement with a name for its place.  Running a block over a stack of names, a
`Region_push` pushes its own name and a `Region_pop` drops the top one; `openAt` is the stack after a
path of blocks.  A graph of sites is `WellNested` when the stack at a block does not depend on the path
taken to it and no pop finds the stack empty.

`openAt_map` renames places, `openAt_filter` leaves places out.
-/

namespace MLton.Ssa

/-- A path from the root: the nodes left behind, in order, and the node reached. -/
inductive Path {ν : Type*} (succ : ν → List ν) (root : ν) : List ν → ν → Prop where
  | nil : Path succ root [] root
  | snoc {p : List ν} {u v : ν} : Path succ root p u → v ∈ succ u → Path succ root (p ++ [u]) v

theorem exists_path_iff {ν : Type*} {succ : ν → List ν} {root v : ν} :
    (∃ p, Path succ root p v) ↔ Relation.ReflTransGen (Dfs.Edge succ) root v := by
  constructor
  · rintro ⟨p, h⟩
    induction h with
    | nil => exact .refl
    | snoc _ huv ih => exact ih.tail huv
  · intro h
    induction h with
    | refl => exact ⟨[], .nil⟩
    | tail _ huv ih =>
      obtain ⟨p, hp⟩ := ih
      exact ⟨p ++ [_], hp.snoc huv⟩

/-- The statement opens a region. -/
def Statement.isPush (s : Statement) : Bool :=
  match s.exp with
  | .primApp .regionPush _ _ _ => true
  | _ => false

/-- The statement closes a region. -/
def Statement.isPop (s : Statement) : Bool :=
  match s.exp with
  | .primApp .regionPop _ _ _ => true
  | _ => false

theorem Statement.isPop_of_isPush {s : Statement} (h : s.isPush = true) : s.isPop = false := by
  unfold isPush at h
  unfold isPop
  split at h <;> simp_all

section Sites

variable {τ : Type*}

/-- One statement over the stack of open regions. -/
def stepOpen (stk : List τ) (t : Statement × τ) : List τ :=
  if t.1.isPush then t.2 :: stk else if t.1.isPop then stk.tail else stk

/-- The statements of a block, in order. -/
def scan (ts : List (Statement × τ)) (stk : List τ) : List τ := ts.foldl stepOpen stk

/-- The regions open after a path. -/
def openAt (sites : Label → List (Statement × τ)) (p : List Label) : List τ :=
  p.foldl (fun stk l => scan (sites l) stk) []

@[simp] theorem scan_nil (stk : List τ) : scan [] stk = stk := rfl

@[simp] theorem scan_cons (t : Statement × τ) (ts : List (Statement × τ)) (stk : List τ) :
    scan (t :: ts) stk = scan ts (stepOpen stk t) := rfl

@[simp] theorem scan_append (ts us : List (Statement × τ)) (stk : List τ) :
    scan (ts ++ us) stk = scan us (scan ts stk) := List.foldl_append ..

@[simp] theorem openAt_nil (sites : Label → List (Statement × τ)) : openAt sites [] = [] := rfl

@[simp] theorem openAt_snoc (sites : Label → List (Statement × τ)) (p : List Label) (l : Label) :
    openAt sites (p ++ [l]) = scan (sites l) (openAt sites p) := by
  simp [openAt]

/-- Only the names of pushes are ever open. -/
theorem mem_stepOpen {stk : List τ} {t : Statement × τ} {u : τ} (h : u ∈ stepOpen stk t) :
    (t.1.isPush = true ∧ u = t.2) ∨ u ∈ stk := by
  unfold stepOpen at h
  split at h
  · rename_i hpush
    rcases List.mem_cons.mp h with h | h
    · exact Or.inl ⟨hpush, h⟩
    · exact Or.inr h
  · split at h
    · exact Or.inr (List.mem_of_mem_tail h)
    · exact Or.inr h

theorem mem_scan : ∀ {ts : List (Statement × τ)} {stk : List τ} {u : τ}, u ∈ scan ts stk →
    (∃ s, (s, u) ∈ ts ∧ s.isPush = true) ∨ u ∈ stk
  | [], _, _, h => Or.inr h
  | t :: ts, stk, u, h => by
    rcases mem_scan (by simpa using h : u ∈ scan ts (stepOpen stk t)) with ⟨s, hs, hpush⟩ | h
    · exact Or.inl ⟨s, List.mem_cons_of_mem _ hs, hpush⟩
    · rcases mem_stepOpen h with ⟨hpush, rfl⟩ | h
      · exact Or.inl ⟨t.1, List.mem_cons_self .., hpush⟩
      · exact Or.inr h

theorem mem_openAt {sites : Label → List (Statement × τ)} {p : List Label} {u : τ}
    (h : u ∈ openAt sites p) : ∃ l s, (s, u) ∈ sites l ∧ s.isPush = true := by
  induction p using List.reverseRecOn with
  | nil => simp at h
  | append_singleton p l ih =>
    rw [openAt_snoc] at h
    rcases mem_scan h with ⟨s, hs, hpush⟩ | h
    · exact ⟨l, s, hs, hpush⟩
    · exact ih h

/-- A graph of sites: where control can go, and the sites of each block. -/
structure SiteGraph (τ : Type*) where
  succ : Label → List Label
  root : Label
  sites : Label → List (Statement × τ)

namespace SiteGraph

variable (G : SiteGraph τ)

/-- The paths of the graph. -/
abbrev IsPath : List Label → Label → Prop := Path G.succ G.root

/-- **A pop, and the region it closes**: on some path to `l` the statement `x` pops `u`. -/
def Pops (u x : τ) : Prop :=
  ∃ p l pre s post rest, G.IsPath p l ∧ G.sites l = pre ++ (s, x) :: post ∧ s.isPop = true ∧
    scan pre (openAt G.sites p) = u :: rest

/-- **Well nested**: the open regions at a block do not depend on the path, and every pop has a
matching push. -/
structure WellNested : Prop where
  unique : ∀ p p' l, G.IsPath p l → G.IsPath p' l → openAt G.sites p = openAt G.sites p'
  matched : ∀ p l pre s x post, G.IsPath p l → G.sites l = pre ++ (s, x) :: post →
    s.isPop = true → scan pre (openAt G.sites p) ≠ []

/-- The graph with its places renamed. -/
def rename {υ : Type*} (ρ : τ → υ) : SiteGraph υ where
  succ := G.succ
  root := G.root
  sites l := (G.sites l).map (Prod.map id ρ)

/-- The graph without the places that are not kept. -/
def restrict (keep : τ → Bool) : SiteGraph τ where
  succ := G.succ
  root := G.root
  sites l := (G.sites l).filter fun t => keep t.2

end SiteGraph

/-! ## Renaming places -/

section Rename

variable {υ : Type*} (ρ : τ → υ)

theorem stepOpen_map (stk : List τ) (t : Statement × τ) :
    stepOpen (stk.map ρ) (Prod.map id ρ t) = (stepOpen stk t).map ρ := by
  simp only [stepOpen, Prod.map_fst, Prod.map_snd, id]
  split
  · simp
  · split <;> simp

theorem scan_map : ∀ (ts : List (Statement × τ)) (stk : List τ),
    scan (ts.map (Prod.map id ρ)) (stk.map ρ) = (scan ts stk).map ρ
  | [], _ => rfl
  | t :: ts, stk => by
    rw [List.map_cons, scan_cons, scan_cons, stepOpen_map, scan_map ts]

theorem openAt_map (G : SiteGraph τ) (p : List Label) :
    openAt (G.rename ρ).sites p = (openAt G.sites p).map ρ := by
  induction p using List.reverseRecOn with
  | nil => rfl
  | append_singleton p l ih =>
    rw [openAt_snoc, openAt_snoc, ih]
    exact scan_map ρ (G.sites l) (openAt G.sites p)

/-- A renamed graph's decomposition of a block comes from one of the original. -/
theorem sites_rename_eq {G : SiteGraph τ} {l : Label} {pre post : List (Statement × υ)}
    {s : Statement} {y : υ} (h : (G.rename ρ).sites l = pre ++ (s, y) :: post) :
    ∃ pre₀ x post₀, G.sites l = pre₀ ++ (s, x) :: post₀ ∧ ρ x = y ∧
      pre = pre₀.map (Prod.map id ρ) ∧ post = post₀.map (Prod.map id ρ) := by
  obtain ⟨pre₀, rest, hl, hpre, hrest⟩ := List.map_eq_append_iff.mp h
  obtain ⟨⟨s', x⟩, post₀, rfl, hsx, hpost⟩ := List.map_eq_cons_iff.mp hrest
  obtain ⟨rfl, rfl⟩ : s' = s ∧ ρ x = y := by simpa [Prod.map] using hsx
  exact ⟨pre₀, x, post₀, hl, rfl, hpre.symm, hpost.symm⟩

theorem SiteGraph.WellNested.rename {G : SiteGraph τ} (h : G.WellNested) :
    (G.rename ρ).WellNested where
  unique p p' l hp hp' := by rw [openAt_map, openAt_map, h.unique p p' l hp hp']
  matched p l pre s y post hp hl hs := by
    obtain ⟨pre₀, x, post₀, hl₀, -, rfl, -⟩ := sites_rename_eq ρ hl
    rw [openAt_map, scan_map]
    simpa using h.matched p l pre₀ s x post₀ hp hl₀ hs

theorem SiteGraph.Pops.rename {G : SiteGraph τ} {u x : τ} (h : G.Pops u x) :
    (G.rename ρ).Pops (ρ u) (ρ x) := by
  obtain ⟨p, l, pre, s, post, rest, hp, hl, hs, hscan⟩ := h
  refine ⟨p, l, pre.map (Prod.map id ρ), s, post.map (Prod.map id ρ), rest.map ρ, hp, ?_, hs, ?_⟩
  · change (G.sites l).map (Prod.map id ρ) = _
    simp [hl]
  · rw [openAt_map, scan_map, hscan]
    rfl

end Rename

/-! ## Leaving places out -/

section Restrict

variable {G : SiteGraph τ} {keep : τ → Bool}

/-- A pop is kept exactly when the push it matches is. -/
def SiteGraph.PopsKept (G : SiteGraph τ) (keep : τ → Bool) : Prop :=
  ∀ u x, G.Pops u x → keep x = keep u

/-- **Along a block the kept places see the kept part of the stack.** -/
theorem scan_filter (hn : G.WellNested) (hk : G.PopsKept keep) {p : List Label} {l : Label}
    (hp : G.IsPath p l) : ∀ (ts pre post : List (Statement × τ)), G.sites l = pre ++ ts ++ post →
    scan (ts.filter fun t => keep t.2) ((scan pre (openAt G.sites p)).filter keep)
      = (scan ts (scan pre (openAt G.sites p))).filter keep
  | [], _, _, _ => rfl
  | (s, x) :: ts, pre, post, hl => by
    have ih := scan_filter hn hk hp ts (pre ++ [(s, x)]) post (by simpa using hl)
    have hl' : G.sites l = pre ++ (s, x) :: (ts ++ post) := by simpa using hl
    rw [scan_append, scan_cons, scan_nil] at ih
    rw [scan_cons, ← ih]
    by_cases hpush : s.isPush = true
    · by_cases hx : keep x = true
      · simp [stepOpen, hpush, hx]
      · simp [stepOpen, hpush, hx]
    by_cases hpop : s.isPop = true
    · -- a pop: the top of the stack is the region it closes, and the two are kept together
      obtain ⟨u, rest, hstk⟩ := List.exists_cons_of_ne_nil (hn.matched p l pre s x _ hp hl' hpop)
      have hux := hk u x ⟨p, l, pre, s, _, rest, hp, hl', hpop, hstk⟩
      rw [hstk]
      by_cases hx : keep x = true
      · simp [stepOpen, hpush, hpop, hx, ← hux]
      · simp [stepOpen, hpush, hpop, hx, ← hux]
    · by_cases hx : keep x = true
      · simp [stepOpen, hpush, hpop, hx]
      · simp [stepOpen, hpush, hpop, hx]

theorem openAt_filter (hn : G.WellNested) (hk : G.PopsKept keep) {p : List Label} {l : Label}
    (hp : G.IsPath p l) :
    openAt (G.restrict keep).sites p = (openAt G.sites p).filter keep := by
  induction hp with
  | nil => rfl
  | snoc hp _ ih =>
    rw [openAt_snoc, openAt_snoc, ih]
    exact scan_filter hn hk hp (G.sites _) [] [] (by simp)

/-- **A well-nested graph stays so** when pops leave with their pushes. -/
theorem SiteGraph.WellNested.restrict (hn : G.WellNested) (hk : G.PopsKept keep) :
    (G.restrict keep).WellNested where
  unique p p' l hp hp' := by
    rw [openAt_filter hn hk hp, openAt_filter hn hk hp', hn.unique p p' l hp hp']
  matched p l pre s x post hp hl hs := by
    obtain ⟨pre₀, rest₀, hl₀, hpre, hrest⟩ := List.filter_eq_append_iff.mp hl
    obtain ⟨skip, post₀, rfl, hskip, hkx, -⟩ := List.filter_eq_cons_iff.mp hrest
    have hscan := scan_filter hn hk hp (pre₀ ++ skip) [] ((s, x) :: post₀) (by simp [hl₀])
    have hfilter : (pre₀ ++ skip).filter (fun t => keep t.2) = pre := by
      rw [List.filter_append, hpre, List.filter_eq_nil_iff.mpr hskip, List.append_nil]
    rw [hfilter, scan_nil, ← openAt_filter hn hk hp] at hscan
    rw [hscan]
    have hl₁ : G.sites l = (pre₀ ++ skip) ++ (s, x) :: post₀ := by simp [hl₀]
    obtain ⟨u, rest, hstk⟩ :=
      List.exists_cons_of_ne_nil (hn.matched p l (pre₀ ++ skip) s x post₀ hp hl₁ hs)
    have hux := hk u x ⟨p, l, _, s, _, rest, hp, hl₁, hs, hstk⟩
    rw [hstk, List.filter_cons, if_pos (hux ▸ hkx)]
    simp

end Restrict

end Sites

/-- The sites of a function: each statement under its block label and its index. -/
def Function.sites (f : Function) (l : Label) : List (Statement × (Label × ℕ)) :=
  match f.block? l with
  | some b => b.statements.zipIdx.map fun t => (t.1, (l, t.2))
  | none => []

/-- The control-flow graph of a function, with its sites. -/
def Function.siteGraph (f : Function) : SiteGraph (Label × ℕ) where
  succ := f.succs
  root := f.start
  sites := f.sites

end MLton.Ssa
