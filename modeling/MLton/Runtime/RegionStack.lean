import MLton.Runtime.RegionBuffer

/-!
# Runtime/RegionStack — pushes and pops of regions are a stack

Each push and each pop is done by the runtime or by what the compiler emits in its place, in any mixture.
`Nested` are the sequences in which every pop has its push; `Saves` says where the bases are that the open
regions will give back, and allocations stay above all of them (`Nested.saves`).
-/

namespace MLton.Runtime.Layout

variable (L : Layout)

/-- What the compiler emits for `Region_push`; the addition is one of words. -/
def regionPushInline (s : RegionState) : RegionState :=
  let oldBase := s.regionBase
  let oldTop := s.regionTop
  let s := { s with memory := s.memory.write L.wordSize oldTop oldBase }
  let newBase := (oldTop + L.wordSize) % 256 ^ L.wordSize
  { s with regionBase := newBase, regionTop := newBase }

/-- `Region_push`, by the compiler's statements or by the runtime. -/
def push (inline : Bool) (s : RegionState) : RegionState :=
  if inline then L.regionPushInline s else L.regionPush s

/-- `Region_pop`, by the compiler's statements or by the runtime. -/
def pop (inline : Bool) (s : RegionState) : RegionState :=
  if inline then L.regionPopInline s else L.regionPop s

/-- **Well-nested sequences** of pushes, allocations and pops, from an empty buffer with enough space.  Of every
open region there is the base and the top that were current at its push, the innermost one first; the number
is how far allocations outside of all regions have moved the top. -/
inductive Nested (mapped : ℕ) : RegionState → List (ℕ × ℕ) → ℕ → Prop
  | init {m : Memory} : mapped + regionBufferSize < 256 ^ L.wordSize →
      Nested mapped (L.initRegions m mapped) [] 0
  | push {s : RegionState} {saved : List (ℕ × ℕ)} {outside : ℕ} (inline : Bool) :
      Nested mapped s saved outside → s.regionTop + L.wordSize ≤ mapped + regionBufferSize →
      Nested mapped (L.push inline s) ((s.regionBase, s.regionTop) :: saved) outside
  | object {s : RegionState} {saved : List (ℕ × ℕ)} {outside : ℕ} (header size : ℕ) (init : List Init) :
      Nested mapped s saved outside →
      s.regionTop + L.normalMetaDataSize + size ≤ mapped + regionBufferSize →
      Nested mapped (mkInit (s.regionTop + L.normalMetaDataSize) init (L.stackObject header size s)) saved
        (if saved = [] then outside + (L.normalMetaDataSize + size) else outside)
  | pop {s : RegionState} {base top : ℕ} {saved : List (ℕ × ℕ)} {outside : ℕ} (inline : Bool) :
      Nested mapped s ((base, top) :: saved) outside → Nested mapped (L.pop inline s) saved outside

/-! ## Where the bases are -/

/-- **The bases that pushes have stored**, each right below the region that was opened by the push. -/
inductive Saves (buffer : ℕ) (m : Memory) (outside : ℕ) : List (ℕ × ℕ) → ℕ → ℕ → Prop
  | buffer : Saves buffer m outside [] buffer (buffer + outside)
  | region {saved : List (ℕ × ℕ)} {base top top' : ℕ} : Saves buffer m outside saved base top →
      L.word m top = base → top + L.wordSize ≤ top' →
      Saves buffer m outside ((base, top) :: saved) (top + L.wordSize) top'

namespace Saves

variable {L} {buffer base top outside : ℕ} {m m' : Memory} {saved : List (ℕ × ℕ)}

theorem bounds (h : L.Saves buffer m outside saved base top) : buffer ≤ base ∧ base ≤ top := by
  induction h with
  | buffer => exact ⟨le_rfl, Nat.le_add_right _ _⟩
  | region _ _ htop ih => exact ⟨by omega, htop⟩

/-- The bytes above the top do not matter. -/
theorem agree (h : L.Saves buffer m outside saved base top) (hm : m.Agree m' buffer top) :
    L.Saves buffer m' outside saved base top := by
  induction h with
  | buffer => exact .buffer
  | region h hbase htop ih =>
    have hbounds := h.bounds
    refine .region (ih (hm.mono le_rfl (by omega))) ?_ htop
    exact (Memory.Agree.read_eq (hm.mono (by omega) (by omega))).trans hbase

/-- **An allocation moves the top**, and what is outside of all regions if none is open. -/
theorem advance (h : L.Saves buffer m outside saved base top) (n : ℕ) :
    L.Saves buffer m (if saved = [] then outside + n else outside) saved base (top + n) := by
  cases h with
  | buffer =>
    rw [if_pos rfl, Nat.add_assoc]
    exact .buffer
  | region h hbase htop =>
    rw [if_neg (List.cons_ne_nil _ _)]
    exact .region h hbase (by omega)

/-- Every base is where its push has put it. -/
theorem word_eq (h : L.Saves buffer m outside saved base top) : ∀ x ∈ saved, L.word m x.2 = x.1 := by
  induction h with
  | buffer => exact fun x hx => absurd hx List.not_mem_nil
  | region _ hbase _ ih => exact List.forall_mem_cons.mpr ⟨hbase, ih⟩

end Saves

/-! ## Pushes and pops -/

/-- Every component of an object is above the top. -/
theorem agree_mkInit_of_le {lo hi dst : ℕ} (hdst : hi ≤ dst) : ∀ {init : List Init} {m : Memory},
    m.Agree (init.foldl (fun m i => m.write i.bytes (dst + i.offset) i.src) m) lo hi
  | [], _ => .refl
  | _ :: _, _ => (Memory.agree_write (.inl (by omega))).trans (agree_mkInit_of_le hdst)

variable {L} {mapped outside base top : ℕ} {s : RegionState} {saved : List (ℕ × ℕ)}

/-- The two implementations of a push agree where there is space. -/
theorem regionPushInline_eq (h : s.regionTop + L.wordSize < 256 ^ L.wordSize) :
    L.regionPushInline s = L.regionPush s := by
  simp only [regionPushInline, regionPush, Nat.mod_eq_of_lt h]

/-- **The two implementations of a pop agree** in a region: the tests of the runtime fail. -/
theorem pop_of_saves {m : Memory} (hm : s.memory = m)
    (h : L.Saves s.regionBuffer m outside ((base, top) :: saved) s.regionBase s.regionTop) (inline : Bool) :
    s.regionTop ≠ s.regionBuffer ∧ s.regionBase ≠ s.regionBuffer ∧ (L.pop inline s).regionBase = base ∧
      (L.pop inline s).regionTop = top ∧ (L.pop inline s).memory = m ∧
      (L.pop inline s).regionBuffer = s.regionBuffer := by
  have hpos := L.wordSize_pos
  have hbounds := h.bounds
  generalize hb : s.regionBase = b at h hbounds
  cases h with
  | region h hbase htop =>
    have hlower := h.bounds
    have htopne : s.regionTop ≠ s.regionBuffer := by omega
    have hbasene : s.regionBase ≠ s.regionBuffer := by omega
    have hnew : s.regionBase - L.wordSize = top := by omega
    refine ⟨htopne, hb ▸ hbasene, ?_⟩
    cases inline with
    | false =>
      simp only [pop, Bool.false_eq_true, if_false, regionPop, if_neg htopne, if_neg hbasene, hnew, hm, hbase]
      exact ⟨trivial, trivial, trivial, trivial⟩
    | true =>
      simp only [pop, if_true, regionPopInline, hnew, hm, hbase]
      exact ⟨trivial, trivial, trivial, trivial⟩

namespace Nested

/-- **What every sequence keeps.** -/
theorem saves (h : L.Nested mapped s saved outside) : mapped + regionBufferSize < 256 ^ L.wordSize ∧
    L.Saves s.regionBuffer s.memory outside saved s.regionBase s.regionTop := by
  induction h with
  | init hsize => exact ⟨hsize, .buffer⟩
  | @push s saved outside inline _ hfits ih =>
    obtain ⟨hsize, hsaves⟩ := ih
    have hbounds := hsaves.bounds
    have hpush : L.push inline s = L.regionPush s := by
      cases inline with
      | false => rfl
      | true => exact regionPushInline_eq (by omega)
    rw [hpush]
    refine ⟨hsize, .region (hsaves.agree (Memory.agree_write (.inl le_rfl))) ?_ le_rfl⟩
    exact Memory.read_write_of_lt (by omega)
  | @object s saved outside header size init _ hfits ih =>
    obtain ⟨hsize, hsaves⟩ := ih
    refine ⟨hsize, ?_⟩
    have hagree : s.memory.Agree (mkInit (s.regionTop + L.normalMetaDataSize) init
        (L.stackObject header size s)).memory s.regionBuffer s.regionTop :=
      (Memory.agree_write (.inl (Nat.add_sub_cancel _ _).ge)).trans (agree_mkInit_of_le (Nat.le_add_right _ _))
    have hadvance := (hsaves.agree hagree).advance (L.normalMetaDataSize + size)
    have htop : s.regionTop + (L.normalMetaDataSize + size)
        = (mkInit (s.regionTop + L.normalMetaDataSize) init (L.stackObject header size s)).regionTop :=
      (Nat.add_assoc _ _ _).symm
    exact htop ▸ hadvance
  | @pop s base top saved outside inline _ ih =>
    obtain ⟨hsize, hsaves⟩ := ih
    obtain ⟨-, -, hbase, htop, hmem, hbuffer⟩ := pop_of_saves rfl hsaves inline
    rw [hbase, htop, hmem, hbuffer]
    generalize s.regionBase = b at hsaves
    cases hsaves with
    | region h _ _ => exact ⟨hsize, h⟩

end Nested

/-- Without an open region, base and top are at the start of the buffer, but for what is outside. -/
theorem Nested.closed (h : L.Nested mapped s [] outside) :
    s.regionBase = s.regionBuffer ∧ s.regionTop = s.regionBuffer + outside := by
  obtain ⟨-, hsaves⟩ := h.saves
  generalize s.regionBase = b, s.regionTop = t at hsaves
  cases hsaves with
  | buffer => exact ⟨rfl, rfl⟩

/-- **Regions are a stack.**  The bases stay where the pushes have put them; without an open region base and top are
at the start of the buffer, but for what was allocated outside of all regions; both pushes are the same;
and where a region is open neither test of the runtime's pop holds, and both pops restore the base and the top
of its push and leave the bytes alone. -/
theorem regions_restored (h : L.Nested mapped s saved outside) :
    (∀ x ∈ saved, L.word s.memory x.2 = x.1) ∧
      (saved = [] → s.regionBase = s.regionBuffer ∧ s.regionTop = s.regionBuffer + outside) ∧
      (s.regionTop + L.wordSize ≤ mapped + regionBufferSize → L.push true s = L.push false s) ∧
      ∀ base top rest, saved = (base, top) :: rest →
        s.regionTop ≠ s.regionBuffer ∧ s.regionBase ≠ s.regionBuffer ∧
          ∀ inline, (L.pop inline s).regionBase = base ∧ (L.pop inline s).regionTop = top ∧
            (L.pop inline s).memory = s.memory := by
  obtain ⟨hsize, hsaves⟩ := h.saves
  refine ⟨hsaves.word_eq, ?_, fun hfits => regionPushInline_eq (by omega), ?_⟩
  · rintro rfl
    exact h.closed
  · rintro base top rest rfl
    have hpop := pop_of_saves rfl hsaves
    refine ⟨(hpop true).1, (hpop true).2.1, fun inline => ?_⟩
    obtain ⟨-, -, hbase, htop, hmem, -⟩ := hpop inline
    exact ⟨hbase, htop, hmem⟩

/-! ### Two regions, and an object outside of them -/

/-- A machine of 64 bits. -/
def machine64 : Layout where
  alignment := 8
  frameInfos := []
  maxFrameSize := 0
  objectTypes := []
  returnAddressToFrameIndex := id
  wordSize := 8
  align48 := eight_allowed
  native := eight_allowed

/-- Two regions, one opened by the compiler's statements and one by the runtime, with an object in between. -/
def twoRegions : RegionState :=
  let s := machine64.push true (machine64.initRegions (fun _ => 0) 4096)
  machine64.push false (mkInit (s.regionTop + machine64.normalMetaDataSize) [⟨0, 8, 7⟩] (machine64.stackObject 3 16 s))

theorem twoRegions_nested : machine64.Nested 4096 twoRegions [(4104, 4128), (4096, 4096)] 0 :=
  .push false (.object 3 16 [⟨0, 8, 7⟩] (.push true (.init (by decide)) (by decide)) (by decide)) (by decide)

theorem regions_restored_twoRegions :
    (∀ x ∈ [(4104, 4128), (4096, 4096)], machine64.word twoRegions.memory x.2 = x.1) ∧
      ([(4104, 4128), (4096, 4096)] = [] → twoRegions.regionBase = twoRegions.regionBuffer ∧
        twoRegions.regionTop = twoRegions.regionBuffer + 0) ∧
      (twoRegions.regionTop + machine64.wordSize ≤ 4096 + regionBufferSize →
        machine64.push true twoRegions = machine64.push false twoRegions) ∧
      ∀ base top rest, [(4104, 4128), (4096, 4096)] = (base, top) :: rest →
        twoRegions.regionTop ≠ twoRegions.regionBuffer ∧ twoRegions.regionBase ≠ twoRegions.regionBuffer ∧
          ∀ inline, (machine64.pop inline twoRegions).regionBase = base ∧
            (machine64.pop inline twoRegions).regionTop = top ∧
            (machine64.pop inline twoRegions).memory = twoRegions.memory :=
  regions_restored twoRegions_nested

/-- An object is allocated before the first push; the last pop does not give it back. -/
theorem object_outside_kept :
    ¬ ∀ (L : Layout) (mapped : ℕ) (s : RegionState) (base top outside : ℕ) (inline : Bool),
      L.Nested mapped s [(base, top)] outside →
        (L.pop inline s).regionBase = (L.pop inline s).regionBuffer ∧
          (L.pop inline s).regionTop = (L.pop inline s).regionBuffer := by
  intro h
  have hempty : machine64.Nested 4096 (machine64.initRegions (fun _ => 0) 4096) [] 0 := .init (by decide)
  have hobject := Nested.object 3 16 [⟨0, 8, 7⟩] hempty (by decide)
  have hpush := hobject.push true (by decide)
  have htop := (h _ _ _ _ _ _ true hpush).2
  have hclosed := (hpush.pop true).closed.2
  have hout : (if ([] : List (ℕ × ℕ)) = [] then 0 + (machine64.normalMetaDataSize + 16) else 0) = 24 := rfl
  omega

end MLton.Runtime.Layout
