import MLton.Rssa.Chunkify

/-!
# Rssa/ChunkifyCollect — classes give a legal partition

What the code generators ask of chunks: every function and every block is in one of them, a block is in the
chunk of the blocks it jumps to, and a function is entered in the chunk of the blocks that jumps lead to from its
start.  `one` and `func` do this at once; for the other two it is enough that the classes of blocks that jump to
one another have one root (`Partitioned.collect`).
-/

namespace MLton.Rssa.Chunkify

variable {p : Program} {α : Type*} {key : α → Option ℕ} {sel : Chunk → List α} {xs : List α} {x : α}
  {A : List (ℕ × Chunk)} {k : ℕ} {add : Chunk → Chunk}

/-- A block jumps to a label of its function. -/
def Jump (p : Program) (l l' : Label) : Prop := ∃ b ∈ p.blocks, b.label = l ∧ l' ∈ jumps b

/-- **A legal partition**: each label and each function is in exactly one chunk, jumps stay within a chunk, and
so does what a function reaches by jumps from its entry. -/
structure Legal (p : Program) (r : List Chunk) : Prop where
  labels : (r.flatMap Chunk.labels).Perm (p.blocks.map Block.label)
  funcs : (r.flatMap Chunk.funcs).Perm (p.all.map Function.name)
  jump : ∀ l l', Jump p l l' → ∀ c ∈ r, l ∈ c.labels ↔ l' ∈ c.labels
  entry : ∀ f ∈ p.all, ∀ l, Relation.ReflTransGen (Jump p) f.start l → ∀ c ∈ r, f.name ∈ c.funcs ↔ l ∈ c.labels

/-- Entries follow from the start blocks. -/
theorem entry_of_start {r : List Chunk} (hjump : ∀ l l', Jump p l l' → ∀ c ∈ r, l ∈ c.labels ↔ l' ∈ c.labels)
    (hstart : ∀ f ∈ p.all, ∀ c ∈ r, f.name ∈ c.funcs ↔ f.start ∈ c.labels) (f : Function) (hf : f ∈ p.all)
    (l : Label) (hl : Relation.ReflTransGen (Jump p) f.start l) (c : Chunk) (hc : c ∈ r) :
    f.name ∈ c.funcs ↔ l ∈ c.labels := by
  induction hl with
  | refl => exact hstart f hf c hc
  | tail _ h ih => exact ih.trans (hjump _ _ h c hc)

theorem jumps_subset (b : Block) : jumps b ⊆ b.transfer.labels := by
  unfold jumps
  cases b.transfer <;> simp [Transfer.labels]

/-- A jump stays in its function. -/
theorem exists_of_jump (h : p.Scoped) {l l' : Label} (hj : Jump p l l') :
    ∃ f ∈ p.all, l ∈ f.blocks.map Block.label ∧ l' ∈ f.blocks.map Block.label := by
  obtain ⟨b, hb, rfl, hl'⟩ := hj
  obtain ⟨f, hf, hbf⟩ := Program.mem_blocks.mp hb
  refine ⟨f, hf, List.mem_map_of_mem hbf, ?_⟩
  have hmem : l' ∈ f.labels := List.mem_cons_of_mem _
    (List.mem_flatMap.mpr ⟨b, hbf, List.mem_cons_of_mem _ (jumps_subset b hl')⟩)
  obtain ⟨b', hb'⟩ := Option.isSome_iff_exists.mp (h.resolved f hf l' hmem)
  rw [← Function.block?_label hb']
  exact List.mem_map_of_mem (Function.block?_mem hb')

theorem start_mem (h : p.Scoped) {f : Function} (hf : f ∈ p.all) : f.start ∈ f.blocks.map Block.label := by
  obtain ⟨b, hb⟩ := Option.isSome_iff_exists.mp (h.resolved f hf f.start (List.mem_cons_self ..))
  rw [← Function.block?_label hb]
  exact List.mem_map_of_mem (Function.block?_mem hb)

theorem labels_eq : p.blocks.map Block.label = p.all.flatMap fun f => f.blocks.map Block.label := by
  simp [Program.blocks, List.map_flatMap]

/-! ## All code in one chunk, and a chunk for each function -/

theorem one_legal (h : p.Scoped) : Legal p (one p) := by
  have hlabels : (one p).flatMap Chunk.labels = p.blocks.map Block.label := by
    rw [labels_eq]
    simp [one, List.flatMap_def]
  have hmem : ∀ c ∈ one p, ∀ f ∈ p.all, ∀ l ∈ f.blocks.map Block.label, l ∈ c.labels ∧ f.name ∈ c.funcs := by
    intro c hc f hf l hl
    obtain rfl := List.mem_singleton.mp hc
    exact ⟨List.mem_flatten.mpr ⟨_, List.mem_map_of_mem hf, hl⟩, List.mem_map_of_mem hf⟩
  have hjump : ∀ l l', Jump p l l' → ∀ c ∈ one p, l ∈ c.labels ↔ l' ∈ c.labels := by
    intro l l' hj c hc
    obtain ⟨f, hf, hl, hl'⟩ := exists_of_jump h hj
    exact iff_of_true (hmem c hc f hf l hl).1 (hmem c hc f hf l' hl').1
  refine ⟨hlabels ▸ .refl _, by simp [one], hjump, entry_of_start hjump fun f hf c hc => ?_⟩
  exact iff_of_true (hmem c hc f hf _ (start_mem h hf)).2 (hmem c hc f hf _ (start_mem h hf)).1

theorem func_legal (h : p.Scoped) : Legal p (func p) := by
  have hlabels : (func p).flatMap Chunk.labels = p.blocks.map Block.label := by
    rw [labels_eq]
    simp [func, List.flatMap_map]
  have hnd : (p.all.flatMap fun f => f.blocks.map Block.label).Nodup := labels_eq ▸ h.labels
  -- A label is in the chunk of its own function and in no other one.
  have hiff : ∀ f ∈ p.all, ∀ l ∈ f.blocks.map Block.label, ∀ g ∈ p.all,
      l ∈ g.blocks.map Block.label ↔ g = f := fun f hf l hl g hg =>
    ⟨fun hl' => Fold.eq_of_nodup_flatMap hnd hg hf hl' hl, fun hgf => hgf ▸ hl⟩
  have hjump : ∀ l l', Jump p l l' → ∀ c ∈ func p, l ∈ c.labels ↔ l' ∈ c.labels := by
    intro l l' hj c hc
    obtain ⟨g, hg, rfl⟩ := List.mem_map.mp hc
    obtain ⟨f, hf, hl, hl'⟩ := exists_of_jump h hj
    exact (hiff f hf l hl g hg).trans (hiff f hf l' hl' g hg).symm
  have hfuncs : (func p).flatMap Chunk.funcs = p.all.map Function.name := by
    rw [List.map_eq_flatMap, func, List.flatMap_map]
  refine ⟨hlabels ▸ .refl _, hfuncs ▸ .refl _, hjump, entry_of_start hjump fun f hf c hc => ?_⟩
  obtain ⟨g, hg, rfl⟩ := List.mem_map.mp hc
  rw [hiff f hf _ (start_mem h hf) g hg, List.mem_singleton]
  exact ⟨fun heq => (List.inj_on_of_nodup_map h.names hf hg heq).symm, fun heq => heq ▸ rfl⟩

/-! ## Collecting the chunks of classes -/

theorem fst_push : (push A k add).map Prod.fst = if k ∈ A.map Prod.fst then A.map Prod.fst else k :: A.map Prod.fst := by
  unfold push
  split
  · rw [List.map_map]
    refine List.map_congr_left fun ch _ => ?_
    simp only [Function.comp]
    split
    · rename_i heq
      exact heq.symm
    · rfl
  · rfl

/-- An entry after a push: an entry of another class, or the class's own with the addition. -/
theorem mem_push {kc : ℕ × Chunk} (h : kc ∈ push A k add) :
    (kc ∈ A ∧ kc.1 ≠ k) ∨
      ∃ ch, ((k, ch) ∈ A ∨ (k ∉ A.map Prod.fst ∧ ch = ⟨[], []⟩)) ∧ kc = (k, add ch) := by
  unfold push at h
  split at h
  · obtain ⟨ch, hch, rfl⟩ := List.mem_map.mp h
    split
    · rename_i heq
      exact .inr ⟨ch.2, .inl (heq ▸ hch), rfl⟩
    · rename_i hne
      exact .inl ⟨hch, hne⟩
  · rename_i hk
    obtain rfl | h := List.mem_cons.mp h
    · exact .inr ⟨_, .inr ⟨hk, rfl⟩, rfl⟩
    · exact .inl ⟨h, fun heq => hk (heq ▸ List.mem_map_of_mem h)⟩

/-- One field of the chunks collected so far: each holds the entries of its class, latest first. -/
structure Sorted (key : α → Option ℕ) (sel : Chunk → List α) (xs : List α) (A : List (ℕ × Chunk)) : Prop where
  eq : ∀ kc ∈ A, sel kc.2 = xs.reverse.filter fun x => key x = some kc.1
  mem : ∀ x ∈ xs, ∃ k ∈ A.map Prod.fst, key x = some k

theorem Sorted.filter_eq_nil (h : Sorted key sel xs A) (hk : k ∉ A.map Prod.fst) :
    (xs.reverse.filter fun x => key x = some k) = [] :=
  List.filter_eq_nil_iff.mpr fun x hx heq => by
    obtain ⟨k', hk', hkey⟩ := h.mem x (List.mem_reverse.mp hx)
    obtain rfl : k' = k := Option.some.inj (hkey.symm.trans (of_decide_eq_true heq))
    exact hk hk'

theorem mem_fst_push {k' : ℕ} (h : k' ∈ A.map Prod.fst) : k' ∈ (push A k add).map Prod.fst := by
  rw [fst_push]
  split
  · exact h
  · exact List.mem_cons_of_mem _ h

theorem self_mem_fst_push : k ∈ (push A k add).map Prod.fst := by
  rw [fst_push]
  split
  · assumption
  · exact List.mem_cons_self ..

/-- **A push adds its entry to its class.** -/
theorem Sorted.push_self (h : Sorted key sel xs A) (hx : key x = some k) (hempty : sel ⟨[], []⟩ = [])
    (hadd : ∀ ch, sel (add ch) = x :: sel ch) : Sorted key sel (xs ++ [x]) (push A k add) := by
  refine ⟨fun kc hkc => ?_, fun y hy => ?_⟩
  · rw [List.reverse_append, List.reverse_singleton, List.singleton_append]
    obtain ⟨hmem, hne⟩ | ⟨ch, hch, rfl⟩ := mem_push hkc
    · have hxk : key x ≠ some kc.1 := fun heq => hne (Option.some.inj (heq.symm.trans hx))
      rw [List.filter_cons_of_neg (by simpa using hxk), h.eq kc hmem]
    · rw [List.filter_cons_of_pos (by simpa using hx), hadd]
      obtain hch | ⟨hk, rfl⟩ := hch
      · rw [h.eq _ hch]
      · rw [hempty, h.filter_eq_nil hk]
  · obtain hy | hy := List.mem_append.mp hy
    · obtain ⟨k', hk', hkey⟩ := h.mem y hy
      exact ⟨k', mem_fst_push hk', hkey⟩
    · obtain rfl := List.mem_singleton.mp hy
      exact ⟨k, self_mem_fst_push, hx⟩

/-- A push to the other field. -/
theorem Sorted.push_other (h : Sorted key sel xs A) (hempty : sel ⟨[], []⟩ = [])
    (hadd : ∀ ch, sel (add ch) = sel ch) : Sorted key sel xs (push A k add) := by
  refine ⟨fun kc hkc => ?_, fun y hy => ?_⟩
  · obtain ⟨hmem, -⟩ | ⟨ch, hch, rfl⟩ := mem_push hkc
    · exact h.eq kc hmem
    · rw [hadd]
      obtain hch | ⟨hk, rfl⟩ := hch
      · rw [h.eq _ hch]
      · rw [hempty, h.filter_eq_nil hk]
  · obtain ⟨k', hk', hkey⟩ := h.mem y hy
    exact ⟨k', mem_fst_push hk', hkey⟩

theorem nodup_push (h : (A.map Prod.fst).Nodup) : ((push A k add).map Prod.fst).Nodup := by
  rw [fst_push]
  split
  · exact h
  · exact List.nodup_cons.mpr ⟨by assumption, h⟩

/-- **Each entry is in exactly one chunk.** -/
theorem Sorted.perm (h : Sorted key sel xs A) (hnd : (A.map Prod.fst).Nodup) (hxs : xs.Nodup) :
    ((A.map Prod.snd).flatMap sel).Perm xs := by
  rw [List.flatMap_map]
  refine (List.perm_ext_iff_of_nodup ?_ hxs).mpr fun x => ?_
  · refine List.nodup_flatMap.mpr ⟨fun kc hkc => ?_, ?_⟩
    · rw [h.eq kc hkc]
      exact (List.nodup_reverse.mpr hxs).filter _
    · refine (List.pairwise_map.mp hnd).imp_of_mem fun {kc kc'} hkc hkc' hne x hx hx' => hne ?_
      replace hx : x ∈ sel kc.2 := hx
      replace hx' : x ∈ sel kc'.2 := hx'
      rw [h.eq _ hkc, List.mem_filter] at hx
      rw [h.eq _ hkc', List.mem_filter] at hx'
      exact Option.some.inj ((of_decide_eq_true hx.2).symm.trans (of_decide_eq_true hx'.2))
  · rw [List.mem_flatMap]
    constructor
    · rintro ⟨kc, hkc, hx⟩
      rw [h.eq _ hkc, List.mem_filter] at hx
      exact List.mem_reverse.mp hx.1
    · intro hx
      obtain ⟨k, hk, hkey⟩ := h.mem x hx
      obtain ⟨kc, hkc, rfl⟩ := List.mem_map.mp hk
      refine ⟨kc, hkc, ?_⟩
      rw [h.eq _ hkc, List.mem_filter]
      exact ⟨List.mem_reverse.mpr hx, by simpa using hkey⟩

/-- The classes of a program: every block and every function has one, a function that of its start, and the
classes of blocks that jump to one another have one root. -/
structure Partitioned (p : Program) (root : ℕ → ℕ) (funcClass : Func → Option ℕ)
    (labelClass : Label → Option ℕ) : Prop where
  label : ∀ l, p.HasLabel l → ∃ c, labelClass l = some c
  func : ∀ f ∈ p.all, ∃ c, funcClass f.name = some c ∧ labelClass f.start = some c
  jump : ∀ l l', Jump p l l' → (labelClass l).map root = (labelClass l').map root

/-- The chunks of a program: those of the roots of its classes. -/
structure Collected (p : Program) (root : ℕ → ℕ) (funcClass : Func → Option ℕ) (labelClass : Label → Option ℕ)
    (A : List (ℕ × Chunk)) : Prop where
  nodup : (A.map Prod.fst).Nodup
  funcs : Sorted (fun f => (funcClass f).map root) Chunk.funcs (p.all.map Function.name) A
  labels : Sorted (fun l => (labelClass l).map root) Chunk.labels (p.blocks.map Block.label) A

variable {root : ℕ → ℕ} {funcClass : Func → Option ℕ} {labelClass : Label → Option ℕ}

theorem addFunc_eq {f : Func} (h : funcClass f = some k) :
    addFunc root funcClass A f = some (push A (root k) fun ch => { ch with funcs := f :: ch.funcs }) := by
  simp [addFunc, h]

theorem addLabel_eq {l : Label} (h : labelClass l = some k) :
    addLabel root labelClass A l = some (push A (root k) fun ch => { ch with labels := l :: ch.labels }) := by
  simp [addLabel, h]

/-- **The fold of `collect` sorts functions and labels by class.** -/
theorem Partitioned.collect (h : Partitioned p root funcClass labelClass) :
    ∃ A, collect p root funcClass labelClass = some (A.map Prod.snd) ∧
      Collected p root funcClass labelClass A := by
  let S (fs : List Func) (ls : List Label) (A : List (ℕ × Chunk)) : Prop :=
    (A.map Prod.fst).Nodup ∧ Sorted (fun f => (funcClass f).map root) Chunk.funcs fs A ∧
      Sorted (fun l => (labelClass l).map root) Chunk.labels ls A
  have hfunc : ∀ (A : List (ℕ × Chunk)) fs ls, ∀ f ∈ p.all, S fs ls A →
      ∃ A', addFunc root funcClass A f.name = some A' ∧ S (fs ++ [f.name]) ls A' := by
    intro A fs ls f hf hS
    obtain ⟨c, hc, -⟩ := h.func f hf
    exact ⟨_, addFunc_eq hc, nodup_push hS.1, hS.2.1.push_self (by simp [hc]) rfl fun _ => rfl,
      hS.2.2.push_other rfl fun _ => rfl⟩
  have hlabel : ∀ (A : List (ℕ × Chunk)) fs ls, ∀ l, p.HasLabel l → S fs ls A →
      ∃ A', addLabel root labelClass A l = some A' ∧ S fs (ls ++ [l]) A' := by
    intro A fs ls l hl hS
    obtain ⟨c, hc⟩ := h.label l hl
    exact ⟨_, addLabel_eq hc, nodup_push hS.1, hS.2.1.push_other rfl fun _ => rfl,
      hS.2.2.push_self (by simp [hc]) rfl fun _ => rfl⟩
  obtain ⟨A, hA, hS⟩ := Fold.foldlM_prefix
    (I := fun fs A => S (fs.map Function.name) (fs.flatMap fun f => f.blocks.map Block.label) A)
    (l := p.all) (d := []) (a := ([] : List (ℕ × Chunk)))
    (g := fun chunks f => do
      let chunks ← addFunc root funcClass chunks f.name
      (f.blocks.map Block.label).foldlM (addLabel root labelClass) chunks)
    (fun A fs f hpre hS => by
      have hf : f ∈ p.all := hpre.subset (by simp)
      obtain ⟨A₁, h₁, hS₁⟩ := hfunc A _ _ f hf hS
      obtain ⟨A₂, h₂, hS₂⟩ := Fold.foldlM_prefix
        (I := fun ls A => S (fs.map Function.name ++ [f.name])
          ((fs.flatMap fun f => f.blocks.map Block.label) ++ ls) A)
        (l := f.blocks.map Block.label) (d := []) (a := A₁) (g := addLabel root labelClass)
        (fun A ls l hpre hS => by
          have hl : p.HasLabel l := by
            rw [Program.HasLabel, labels_eq]
            exact List.mem_flatMap.mpr ⟨f, hf, hpre.subset (by simp)⟩
          rw [← List.append_assoc]
          exact hlabel A _ _ l hl hS)
        (by simpa using hS₁)
      exact ⟨A₂, by simp [h₁, h₂], by simpa using hS₂⟩)
    ⟨List.nodup_nil, ⟨by simp, by simp⟩, ⟨by simp, by simp⟩⟩
  refine ⟨A, by unfold Chunkify.collect; rw [hA]; rfl, hS.1, by simpa using hS.2.1, ?_⟩
  rw [labels_eq]
  simpa using hS.2.2

/-- **The chunks of classes are a legal partition.** -/
theorem Partitioned.legal (hp : p.Scoped) (h : Partitioned p root funcClass labelClass) {A : List (ℕ × Chunk)}
    (hA : Collected p root funcClass labelClass A) : Legal p (A.map Prod.snd) := by
  have hlabel : ∀ l, p.HasLabel l → ∀ kc ∈ A, l ∈ kc.2.labels ↔ (labelClass l).map root = some kc.1 := by
    intro l hl kc hkc
    rw [hA.labels.eq kc hkc, List.mem_filter, List.mem_reverse, decide_eq_true_eq]
    exact and_iff_right hl
  have hhas : ∀ {l f}, f ∈ p.all → l ∈ f.blocks.map Block.label → p.HasLabel l := fun hf hl => by
    rw [Program.HasLabel, labels_eq]
    exact List.mem_flatMap.mpr ⟨_, hf, hl⟩
  have hjump : ∀ l l', Jump p l l' → ∀ c ∈ A.map Prod.snd, l ∈ c.labels ↔ l' ∈ c.labels := by
    intro l l' hj c hc
    obtain ⟨kc, hkc, rfl⟩ := List.mem_map.mp hc
    obtain ⟨f, hf, hl, hl'⟩ := exists_of_jump hp hj
    rw [hlabel l (hhas hf hl) kc hkc, hlabel l' (hhas hf hl') kc hkc, h.jump l l' hj]
  refine ⟨hA.labels.perm hA.nodup hp.labels, hA.funcs.perm hA.nodup hp.names, hjump,
    entry_of_start hjump fun f hf c hc => ?_⟩
  obtain ⟨kc, hkc, rfl⟩ := List.mem_map.mp hc
  obtain ⟨c, hc, hstart⟩ := h.func f hf
  rw [hlabel f.start (hhas hf (start_mem hp hf)) kc hkc, hstart, hA.funcs.eq kc hkc, List.mem_filter,
    List.mem_reverse, decide_eq_true_eq, hc]
  exact and_iff_right (List.mem_map_of_mem hf)

end MLton.Rssa.Chunkify
