import MLton.Ssa.ProfileMarked

/-!
# Ssa/ProfileBalanced — the marks that profiling adds are balanced

The source of a function is open from the start on, below what the function has open itself.  So the marks are
balanced if those of the function are, and nothing else is open at the calls whose exceptions go to the caller
(`profile_checkProf`).
-/

namespace MLton.Ssa

namespace Profile

variable {f f' : Function} {si : ℕ} {b : Block} {l : Label} {stk stk' t : List ℕ}

/-! ## What is open -/

theorem foldlM_append_base {base : List ℕ} : ∀ {ss : List Statement} {stk t : List ℕ},
    ss.foldlM Statement.sources stk = some t → ss.foldlM Statement.sources (stk ++ base) = some (t ++ base)
  | [], stk, t, h => by
      obtain rfl := Option.some.inj h
      rfl
  | s :: ss, stk, t, h => by
      obtain ⟨stk', h₁, h₂⟩ := Option.bind_eq_some_iff.mp h
      have hstep : Statement.sources (stk ++ base) s = some (stk' ++ base) := by
        unfold Statement.sources at h₁ ⊢
        split at h₁
        · next e _ =>
          match e, stk, h₁ with
          | .enter si, stk, h₁ =>
            obtain rfl := Option.some.inj h₁
            rfl
          | .leave si, si' :: stk, h₁ =>
            obtain ⟨heq, h₁⟩ := Option.ite_none_right_eq_some.mp h₁
            obtain rfl := Option.some.inj h₁
            exact if_pos heq
        · obtain rfl := Option.some.inj h₁
          rfl
      rw [List.foldlM_cons, hstep]
      exact foldlM_append_base h₂

/-- Statements that do not leave a source leave it open. -/
theorem of_foldlM_append : ∀ {ss : List Statement} {stk t : List ℕ},
    (∀ s ∈ ss, s.exp ≠ .profile (.leave si)) → ss.foldlM Statement.sources (stk ++ [si]) = some t →
    ∃ t', t = t' ++ [si] ∧ ss.foldlM Statement.sources stk = some t'
  | [], stk, t, _, h => ⟨stk, (Option.some.inj h).symm, rfl⟩
  | s :: ss, stk, t, hss, h => by
      obtain ⟨hs, hss⟩ := List.forall_mem_cons.mp hss
      obtain ⟨stk', h₁, h₂⟩ := Option.bind_eq_some_iff.mp h
      have hstep : ∃ stk'', stk' = stk'' ++ [si] ∧ Statement.sources stk s = some stk'' := by
        unfold Statement.sources at h₁ ⊢
        split at h₁
        · next e he =>
          rw [he] at hs
          match e, stk, hs, h₁ with
          | .enter si', stk, _, h₁ => exact ⟨si' :: stk, (Option.some.inj h₁).symm, rfl⟩
          | .leave si', [], hs, h₁ =>
            obtain ⟨rfl, -⟩ := Option.ite_none_right_eq_some.mp h₁
            exact absurd rfl hs
          | .leave si', si'' :: stk, _, h₁ =>
            obtain ⟨heq, h₁⟩ := Option.ite_none_right_eq_some.mp h₁
            exact ⟨stk, (Option.some.inj h₁).symm, if_pos heq⟩
        · exact ⟨stk, (Option.some.inj h₁).symm, rfl⟩
      obtain ⟨stk'', rfl, hs'⟩ := hstep
      obtain ⟨t', rfl, ht'⟩ := of_foldlM_append hss h₂
      refine ⟨t', rfl, ?_⟩
      rw [List.foldlM_cons, hs']
      exact ht'

/-- Some path gets to the label with the stack. -/
abbrev Arrives (f : Function) : Label → List ℕ → Prop := EntryState.Arrives f.succs f.sources f.start []

/-- No block fails, and each has one stack at its entry. -/
abbrev Consistent (f : Function) : Prop := EntryState.Consistent f.succs f.sources f.start []

/-- What the source of the function adds to the stack at the entry of a block. -/
def entryStack (f : Function) (si : ℕ) (l : Label) (stk : List ℕ) : List ℕ :=
  if l = f.start then stk else stk ++ [si]

theorem sources_eq_some_iff : f.sources l stk = some t ↔ ∃ b, f.block? l = some b ∧
    b.statements.foldlM Statement.sources stk = some t ∧ (b.transfer.leaves = true → t = []) := by
  rw [Function.sources, Option.bind_eq_some_iff]
  simp only [Block.sources_eq_some]

/-- Nothing is open at the calls whose exceptions go to the caller. -/
def CallsClosed (f : Function) : Prop := ∀ {l b stk t}, Arrives f l stk → f.block? l = some b →
  RaisesToCaller f b.transfer → b.statements.foldlM Statement.sources stk = some t → t = []

/-- Where control goes in the function with its marks. -/
inductive At (f : Function) (si : ℕ) (f' : Function) : Label → List ℕ → Prop
  | old {l : Label} {b : Block} {stk : List ℕ} : f.block? l = some b → Arrives f l stk →
      At f si f' l (entryStack f si l stk)
  | goesOn {l cont : Label} {B d : Block} {args : List Var} {stk : List ℕ} : f'.block? l = some d → l ∉ f.labels →
      d.statements = [] → d.transfer = .goto cont args → f.block? cont = some B → Arrives f cont stk →
      At f si f' l (entryStack f si cont stk)
  | raises {l : Label} {d : Block} {xs : List Var} : f'.block? l = some d → l ∉ f.labels →
      d.statements = [leave si] → d.transfer = .raise xs → At f si f' l [si]

theorem mem_labels (hb : f.block? l = some b) : l ∈ f.labels := by
  obtain rfl := Function.block?_label hb
  exact List.mem_cons_of_mem _ (List.mem_flatMap.mpr ⟨b, Function.block?_mem hb, List.mem_cons_self⟩)

theorem leaves_singleton : Statement.sources [si] (leave si) = some [] := if_pos rfl

/-- If leaving the source of the function leaves nothing open, nothing else was. -/
theorem eq_nil_of_leave (hrun : Statement.sources (t ++ [si]) (leave si) = some []) : t = [] := by
  cases t with
  | nil => rfl
  | cons si' t =>
    obtain ⟨-, h⟩ := Option.ite_none_right_eq_some.mp hrun
    simp at h

section Start

variable (hstart : ∀ b ∈ f.blocks, f.start ∉ b.transfer.labels)

include hstart

theorem ne_start (hb : f.block? l = some b) {l' : Label} (hl' : l' ∈ b.transfer.labels) : l' ≠ f.start :=
  fun heq => hstart b (Function.block?_mem hb) (heq ▸ hl')

theorem eq_nil_of_arrives (harr : Arrives f f.start stk) : stk = [] := by
  generalize hl : f.start = l at harr
  cases harr with
  | root => rfl
  | @step u _ _ _ _ _ hv =>
    unfold Function.succs at hv
    split at hv
    · next b hb => exact absurd hl.symm (ne_start hstart hb hv)
    · cases hv

/-- The statements of a block open the same, above the source of the function. -/
theorem body_run (hb : f.block? l = some b) (harr : Arrives f l stk)
    (hrun : b.statements.foldlM Statement.sources stk = some t) :
    (body f si b).foldlM Statement.sources (entryStack f si l stk) = some (t ++ [si]) := by
  obtain rfl := Function.block?_label hb
  unfold body entryStack
  split
  · next hl =>
    obtain rfl := eq_nil_of_arrives hstart (hl ▸ harr)
    exact @foldlM_append_base [si] b.statements [] t hrun
  · exact foldlM_append_base hrun

variable (hf : f.Closed) (h : Profiled f si f')

section Forward

variable (hcons : Consistent f) (hcalls : CallsClosed f)

include h hcons

section

include hf hcalls

theorem At.step {l' : Label} (hat : At f si f' l stk) (hout : f'.sources l stk = some stk')
    (hl' : l' ∈ f'.succs l) : At f si f' l' stk' := by
  obtain ⟨d, hd, hrun, -⟩ := sources_eq_some_iff.mp hout
  rw [Function.succs_of_block? hd] at hl'
  cases hat with
  | @old b stk hb harr =>
    obtain ⟨t, ht⟩ := hcons.runs harr
    obtain ⟨_, hb', hrunb, -⟩ := sources_eq_some_iff.mp ht
    obtain rfl := Option.some.inj (hb.symm.trans hb')
    have hbody : (body f si b).foldlM Statement.sources (entryStack f si l stk) = some (t ++ [si]) :=
      body_run hstart hb harr hrunb
    have hnext : ∀ l' ∈ b.transfer.labels,
        (∃ B, f.block? l' = some B) ∧ Arrives f l' t ∧ entryStack f si l' t = t ++ [si] := by
      intro l' hl'
      have hsucc : l' ∈ f.succs l := by rwa [Function.succs_of_block? hb]
      exact ⟨hf l' (f.succs_subset_labels l hsucc), harr.step ht hsucc, if_neg (ne_start hstart hb hl')⟩
    obtain ⟨d', e, hm, hd', hnew⟩ := h.old hb
    obtain rfl := Option.some.inj (hd.symm.trans hd')
    cases hm with
    | leave hleaves =>
      rw [Function.labels_of_leaves hleaves] at hl'
      cases hl'
    | stay =>
      obtain rfl := Option.some.inj (hrun.symm.trans hbody)
      obtain ⟨⟨B, hB⟩, harr', hentry⟩ := hnext l' hl'
      rw [← hentry]
      exact .old hB harr'
    | @handler args func cont c h _ _ _ htransfer hraises =>
      obtain rfl := Option.some.inj (hrun.symm.trans hbody)
      have hnil := hcalls harr hb ⟨hraises, _, _, _, htransfer⟩ hrunb
      obtain ⟨⟨B, hB⟩, harr', hentry⟩ := hnext cont (by
        rw [htransfer]
        exact List.mem_cons_self)
      simp only [Transfer.labels, Return.labels, Handler.labels, List.mem_cons, List.not_mem_nil, or_false] at hl'
      obtain rfl | rfl := hl'
      · obtain ⟨hfind, hfresh⟩ := hnew _ List.mem_cons_self
        rw [← hentry]
        exact .goesOn hfind hfresh rfl rfl hB harr'
      · obtain ⟨hfind, hfresh⟩ := hnew _ (List.mem_cons_of_mem _ List.mem_cons_self)
        subst hnil
        exact .raises hfind hfresh rfl rfl
  | goesOn hd' _ hstmts htransfer hB harr =>
    obtain rfl := Option.some.inj (hd.symm.trans hd')
    rw [hstmts] at hrun
    rw [htransfer] at hl'
    obtain rfl := List.mem_singleton.mp hl'
    obtain rfl := Option.some.inj hrun
    exact .old hB harr
  | raises hd' _ _ htransfer =>
    obtain rfl := Option.some.inj (hd.symm.trans hd')
    rw [htransfer] at hl'
    cases hl'

end

theorem At.runs (hat : At f si f' l stk) : ∃ stk', f'.sources l stk = some stk' := by
  cases hat with
  | @old b stk hb harr =>
    obtain ⟨t, ht⟩ := hcons.runs harr
    obtain ⟨_, hb', hrunb, hleaves⟩ := sources_eq_some_iff.mp ht
    obtain rfl := Option.some.inj (hb.symm.trans hb')
    have hbody : (body f si b).foldlM Statement.sources (entryStack f si l stk) = some (t ++ [si]) :=
      body_run hstart hb harr hrunb
    obtain ⟨d', e, hm, hd', -⟩ := h.old hb
    cases hm with
    | leave hl =>
      obtain rfl := hleaves hl
      refine ⟨[], sources_eq_some_iff.mpr ⟨_, hd', ?_, fun _ => rfl⟩⟩
      rw [List.foldlM_append, hbody]
      exact congrArg (Option.bind · _) leaves_singleton
    | stay hl =>
      exact ⟨_, sources_eq_some_iff.mpr ⟨_, hd', hbody, fun h => absurd (hl.symm.trans h) Bool.false_ne_true⟩⟩
    | handler => exact ⟨_, sources_eq_some_iff.mpr ⟨_, hd', hbody, fun h => Bool.noConfusion h⟩⟩
  | goesOn hd _ hstmts htransfer =>
    refine ⟨_, sources_eq_some_iff.mpr ⟨_, hd, by rw [hstmts]; rfl, fun h => ?_⟩⟩
    rw [htransfer] at h
    cases h
  | raises hd _ hstmts =>
    refine ⟨[], sources_eq_some_iff.mpr ⟨_, hd, ?_, fun _ => rfl⟩⟩
    rw [hstmts]
    exact congrArg (Option.bind · _) leaves_singleton

omit h hstart in
theorem At.single (hat : At f si f' l stk) (hat' : At f si f' l stk') : stk = stk' := by
  cases hat with
  | old hb harr =>
    cases hat' with
    | old _ harr' => rw [hcons.single harr harr']
    | goesOn _ hfresh => exact absurd (mem_labels hb) hfresh
    | raises _ hfresh => exact absurd (mem_labels hb) hfresh
  | goesOn hd hfresh _ htransfer _ harr =>
    cases hat' with
    | old hb => exact absurd (mem_labels hb) hfresh
    | goesOn hd' _ _ htransfer' _ harr' =>
      obtain rfl := Option.some.inj (hd.symm.trans hd')
      obtain ⟨rfl, -⟩ := Transfer.goto.inj (htransfer.symm.trans htransfer')
      rw [hcons.single harr harr']
    | raises hd' _ _ htransfer' =>
      obtain rfl := Option.some.inj (hd.symm.trans hd')
      cases htransfer.symm.trans htransfer'
  | raises hd hfresh _ htransfer =>
    cases hat' with
    | old hb => exact absurd (mem_labels hb) hfresh
    | goesOn hd' _ _ htransfer' =>
      obtain rfl := Option.some.inj (hd.symm.trans hd')
      cases htransfer.symm.trans htransfer'
    | raises => rfl

include hf hcalls

/-- **Marks on top of balanced marks** are balanced. -/
theorem consistent_of_profiled : Consistent f' := by
  have hat : ∀ {l stk}, Arrives f' l stk → At f si f' l stk := by
    intro l stk harr
    induction harr with
    | root =>
      obtain ⟨b, hb⟩ := hf f.start f.start_mem_labels
      have hroot : At f si f' f.start (entryStack f si f.start []) := .old hb .root
      rwa [entryStack, if_pos rfl, ← h.start] at hroot
    | step _ hout hv ih => exact ih.step hstart hf h hcons hcalls hout hv
  exact ⟨fun harr => (hat harr).runs hstart h hcons, fun harr harr' => (hat harr).single hcons (hat harr')⟩

end Forward

/-! ## What the marks of the function have to be -/

section Backward

variable (hno : ∀ b ∈ f.blocks, ∀ s ∈ b.statements, s.exp ≠ .profile (.leave si))

include hno in
theorem of_body_run (hb : f.block? l = some b) (harr : Arrives f l stk)
    (hrun : (body f si b).foldlM Statement.sources (entryStack f si l stk) = some t) :
    ∃ t', t = t' ++ [si] ∧ b.statements.foldlM Statement.sources stk = some t' := by
  obtain rfl := Function.block?_label hb
  unfold body entryStack at hrun
  have hno := hno b (Function.block?_mem hb)
  split at hrun
  · next hl =>
    obtain rfl := eq_nil_of_arrives hstart (hl ▸ harr)
    exact @of_foldlM_append si b.statements [] t hno hrun
  · exact of_foldlM_append hno hrun

include h

theorem arrives_profiled (harr : Arrives f l stk) : Arrives f' l (entryStack f si l stk) := by
  induction harr with
  | root =>
    rw [entryStack, if_pos rfl]
    exact h.start ▸ .root
  | @step u v stk t harr hout hv ih =>
    obtain ⟨b, hb, hrun, -⟩ := sources_eq_some_iff.mp hout
    rw [Function.succs_of_block? hb] at hv
    have hbody : (body f si b).foldlM Statement.sources (entryStack f si _ stk) = some (t ++ [si]) :=
      body_run hstart hb harr hrun
    rw [entryStack, if_neg (ne_start hstart hb hv)]
    obtain ⟨d, e, hm, hd, hnew⟩ := h.old hb
    cases hm with
    | leave hleaves =>
      rw [Function.labels_of_leaves hleaves] at hv
      cases hv
    | stay hl =>
      refine ih.step (sources_eq_some_iff.mpr ⟨_, hd, hbody, fun h => ?_⟩) (by rwa [Function.succs_of_block? hd])
      exact absurd (hl.symm.trans h) Bool.false_ne_true
    | handler htransfer =>
      rw [htransfer] at hv
      obtain rfl := List.mem_singleton.mp hv
      have hc := (hnew _ List.mem_cons_self).1
      have harr' := ih.step (sources_eq_some_iff.mpr ⟨_, hd, hbody, fun h => Bool.noConfusion h⟩)
        (by rw [Function.succs_of_block? hd]; exact List.mem_cons_self)
      refine harr'.step (sources_eq_some_iff.mpr ⟨_, hc, rfl, fun h => Bool.noConfusion h⟩) ?_
      rw [Function.succs_of_block? hc]
      exact List.mem_cons_self

include hno hf

/-- **Marks below unbalanced marks** are not balanced, if they are told apart. -/
theorem of_consistent_profiled (hcons : Consistent f') : Consistent f ∧ CallsClosed f := by
  refine ⟨⟨fun {l stk} harr => ?_, fun {l stk stk'} harr harr' => ?_⟩, fun {l b stk t} harr hb hraises hrun => ?_⟩
  · have hl : l ∈ f.labels := by
      cases harr with
      | root => exact f.start_mem_labels
      | step _ _ hv => exact f.succs_subset_labels _ hv
    obtain ⟨b, hb⟩ := hf l hl
    obtain ⟨stk', hout⟩ := hcons.runs (arrives_profiled hstart h harr)
    obtain ⟨d, hd, hrun, hleaves⟩ := sources_eq_some_iff.mp hout
    obtain ⟨d', e, hm, hd', -⟩ := h.old hb
    obtain rfl := Option.some.inj (hd.symm.trans hd')
    cases hm with
    | leave hl =>
      rw [List.foldlM_append] at hrun
      obtain ⟨t, hbody, hleave⟩ := Option.bind_eq_some_iff.mp hrun
      obtain ⟨t', rfl, ht'⟩ := of_body_run hstart hno hb harr hbody
      obtain rfl := hleaves hl
      have hnil : t' = [] := eq_nil_of_leave (by simpa [List.foldlM_cons] using hleave)
      exact ⟨t', sources_eq_some_iff.mpr ⟨b, hb, ht', fun _ => hnil⟩⟩
    | stay hl =>
      obtain ⟨t', -, ht'⟩ := of_body_run hstart hno hb harr hrun
      exact ⟨t', sources_eq_some_iff.mpr ⟨b, hb, ht', fun h => absurd (hl.symm.trans h) Bool.false_ne_true⟩⟩
    | handler htransfer =>
      obtain ⟨t', -, ht'⟩ := of_body_run hstart hno hb harr hrun
      refine ⟨t', sources_eq_some_iff.mpr ⟨b, hb, ht', fun h => ?_⟩⟩
      rw [htransfer] at h
      cases h
  · have heq := hcons.single (arrives_profiled hstart h harr) (arrives_profiled hstart h harr')
    unfold entryStack at heq
    split at heq
    · exact heq
    · exact List.append_cancel_right heq
  · have hbody : (body f si b).foldlM Statement.sources (entryStack f si l stk) = some (t ++ [si]) :=
      body_run hstart hb harr hrun
    obtain ⟨d, e, hm, hd, hnew⟩ := h.old hb
    obtain ⟨hsome, args, func, cont, htransfer⟩ := hraises
    cases hm with
    | leave hl =>
      rw [htransfer] at hl
      cases hl
    | stay _ hnot => exact absurd ⟨hsome, args, func, cont, htransfer⟩ hnot
    | @handler _ _ _ c h' =>
      have hfind := (hnew _ (List.mem_cons_of_mem _ List.mem_cons_self)).1
      have harr' := (arrives_profiled hstart h harr).step
        (sources_eq_some_iff.mpr ⟨_, hd, hbody, fun h => Bool.noConfusion h⟩)
        (show h' ∈ f'.succs l by
          rw [Function.succs_of_block? hd]
          exact List.mem_cons_of_mem _ List.mem_cons_self)
      obtain ⟨stk', hout⟩ := hcons.runs harr'
      obtain ⟨d', hd', hrun', hleaves⟩ := sources_eq_some_iff.mp hout
      obtain rfl := Option.some.inj (hfind.symm.trans hd')
      obtain rfl := hleaves rfl
      exact eq_nil_of_leave (by simpa [List.foldlM_cons] using hrun')

end Backward

end Start

end Profile

/-! ## Balance -/

namespace Function

open Profile

variable {f f' : Function} {si : ℕ}

/-- On no path anything is open at a call whose exceptions go to the caller. -/
def ClosedAtCalls (f : Function) : Prop := ∀ {p l b stk}, Path f.succs f.start p l → f.block? l = some b →
  RaisesToCaller f b.transfer → Opens ((p ++ [l]).flatMap f.marks) stk → stk = []

theorem callsClosed_iff : CallsClosed f ↔ f.ClosedAtCalls := by
  have hmarks : ∀ {l b stk}, f.block? l = some b →
      (f.marks l).foldlM ProfileExp.run stk = b.statements.foldlM Statement.sources stk := by
    intro l b stk hb
    rw [foldlM_sources, marks, hb]
    rfl
  constructor
  · intro h p l b stk hp hb hraises hopens
    obtain ⟨stk₀, hopens₀, hrun⟩ := opens_snoc.mp hopens
    exact h (arrives_iff.mpr ⟨p, hp, hopens₀⟩) hb hraises (by rwa [← hmarks hb])
  · intro h l b stk t harr hb hraises hrun
    obtain ⟨p, hp, hopens⟩ := arrives_iff.mp harr
    exact h hp hb hraises (opens_snoc.mpr ⟨stk, hopens, by rwa [hmarks hb]⟩)

/-- What has no marks of its own has nothing open. -/
theorem closedAtCalls_of_unmarked (h : ∀ b ∈ f.blocks, b.statements.filterMap Statement.mark? = []) :
    f.ClosedAtCalls := by
  intro p l b stk _ _ _ hopens
  have hmarks : (p ++ [l]).flatMap f.marks = [] := by
    refine List.flatMap_eq_nil_iff.mpr fun l _ => ?_
    unfold marks
    cases hb : f.block? l with
    | none => rfl
    | some b => exact h b (block?_mem hb)
  rw [hmarks] at hopens
  exact (Option.some.inj (Opens.iff_foldlM.mp hopens)).symm

/-- **Profiling marks are balanced**, and `checkProf` accepts exactly what is balanced.  A function that control
does not go back to the start of is marked so that the marks are balanced, if its own are and none is open at a
call whose exceptions go to the caller; and only then, if it does not leave the source itself. -/
theorem profile_checkProf (hlabels : (f.blocks.map Block.label).Nodup) (hf : f.Closed) :
    (f.checkProf = true ↔ f.ProfBalanced) ∧
    ((∀ b ∈ f.blocks, f.start ∉ b.transfer.labels) → ∀ (si : ℕ) (n : Supply), (∀ l ∈ f.labels, l.id < n) →
      ∃ f' n', f.profile false true si n = some (f', n') ∧
        (f.ProfBalanced → f.ClosedAtCalls → f'.ProfBalanced) ∧
        ((∀ b ∈ f.blocks, ∀ s ∈ b.statements, s.exp ≠ .profile (.leave si)) → f'.ProfBalanced →
          f.ProfBalanced ∧ f.ClosedAtCalls)) := by
  refine ⟨checkProf_eq_true hf, fun hstart si n hn => ?_⟩
  obtain ⟨f', n', h⟩ := exists_profile hf si n
  have hprofiled := exists_profiled hlabels hn h
  have hf' := hprofiled.closed hf
  refine ⟨f', n', h, fun hbalanced hcalls => ?_, fun hno hbalanced => ?_⟩
  · exact (consistent_iff hf').mp (consistent_of_profiled hstart hf hprofiled ((consistent_iff hf).mpr hbalanced)
      (callsClosed_iff.mpr hcalls))
  · obtain ⟨hcons, hcalls⟩ := of_consistent_profiled hstart hf hprofiled hno ((consistent_iff hf').mpr hbalanced)
    exact ⟨(consistent_iff hf).mp hcons, callsClosed_iff.mp hcalls⟩

/-- A function of two blocks: the first has statements and a transfer, the second leaves. -/
def twoBlocks (ss ss' : List Statement) (t : Transfer) : Function where
  args := []
  blocks := [⟨[], ⟨0⟩, ss, t⟩, ⟨[], ⟨1⟩, ss', .ret []⟩]
  mayInline := true
  name := ⟨0⟩
  raises := some []
  returns := some []
  start := ⟨0⟩

/-- A call whose exceptions go to the caller. -/
def callsOn (ss ss' : List Statement) : Function := twoBlocks ss ss' (.call [] ⟨1⟩ (.nonTail ⟨1⟩ .caller))

/-- A loop back to the start. -/
def startsAgain : Function := twoBlocks [] [] (.case ⟨0⟩ (.con [(⟨0⟩, ⟨1⟩)]) (some ⟨0⟩))

theorem closed_of_all (h : f.labels.all (fun l => (f.block? l).isSome) = true) : f.Closed := fun l hl =>
  Option.isSome_iff_exists.mp (List.all_eq_true.mp h l hl)

theorem profile_checkProf_callsOn : ∃ f' n', (callsOn [] []).profile false true 7 2 = some (f', n') ∧
    (callsOn [] []).ProfBalanced ∧ f'.ProfBalanced := by
  obtain ⟨hcheck, hprofile⟩ := profile_checkProf (f := callsOn [] []) (by decide) (closed_of_all (by decide))
  have hbalanced := hcheck.mp (by decide)
  obtain ⟨f', n', h, hmarked, -⟩ := hprofile (by decide) 7 2 (by decide)
  exact ⟨f', n', h, hbalanced, hmarked hbalanced (closedAtCalls_of_unmarked (by decide))⟩

/-- Marks are not balanced where control goes back to the start, and where another source is open at a call whose
exceptions go to the caller. -/
theorem profile_not_balanced :
    (startsAgain.ProfBalanced ∧ ∃ f' n', startsAgain.profile false true 7 2 = some (f', n') ∧ ¬ f'.ProfBalanced) ∧
    ((callsOn [make (.enter 8)] [make (.leave 8)]).ProfBalanced ∧
      ∃ f' n', (callsOn [make (.enter 8)] [make (.leave 8)]).profile false true 7 2 = some (f', n') ∧
        ¬ f'.ProfBalanced) := by
  refine ⟨⟨?_, _, _, rfl, ?_⟩, ?_, _, _, rfl, ?_⟩
  · exact (checkProf_eq_true (closed_of_all (by decide))).mp (by decide)
  · rw [← checkProf_eq_true (closed_of_all (by decide))]
    decide
  · exact (checkProf_eq_true (closed_of_all (by decide))).mp (by decide)
  · rw [← checkProf_eq_true (closed_of_all (by decide))]
    decide

end Function

end MLton.Ssa
