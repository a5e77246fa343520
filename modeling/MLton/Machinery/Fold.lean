import Mathlib.Data.List.Nodup
import Mathlib.Data.List.Pairwise

/-!
# Machinery/Fold — what a left fold keeps and establishes

A step that keeps `I`, moves along the preorder `T` and establishes at each entry a property that `T`
preserves, does so for the whole fold.
-/

namespace MLton.Fold

variable {α β : Type*} {g : α → β → α} {I : α → Prop} {T : α → α → Prop}

/-- **The fold keeps `I`, moves along `T` and establishes `φ` at every entry.** -/
theorem foldl_establish {φ : β → α → Prop} (hrefl : ∀ a, T a a)
    (htrans : ∀ a b c, T a b → T b c → T a c) (hφ : ∀ a a' b, T a a' → φ b a → φ b a') :
    ∀ (l : List β) (a : α),
      (∀ a, ∀ b ∈ l, I a → I (g a b) ∧ T a (g a b) ∧ φ b (g a b)) → I a →
      I (l.foldl g a) ∧ T a (l.foldl g a) ∧ ∀ b ∈ l, φ b (l.foldl g a)
  | [], a, _, ha => ⟨ha, hrefl a, by simp⟩
  | b :: l, a, h, ha => by
    obtain ⟨h1, t1, p1⟩ := h a b (by simp) ha
    obtain ⟨h2, t2, p2⟩ := foldl_establish hrefl htrans hφ l (g a b)
      (fun a x hx => h a x (List.mem_cons_of_mem _ hx)) h1
    refine ⟨h2, htrans _ _ _ t1 t2, fun x hx => ?_⟩
    rcases List.mem_cons.mp hx with rfl | hx
    · exact hφ _ _ _ t2 p1
    · exact p2 x hx

/-- The fold keeps `I` and moves along `T`. -/
theorem foldl_inv (hrefl : ∀ a, T a a) (htrans : ∀ a b c, T a b → T b c → T a c) (l : List β) (a : α)
    (h : ∀ a, ∀ b ∈ l, I a → I (g a b) ∧ T a (g a b)) (ha : I a) :
    I (l.foldl g a) ∧ T a (l.foldl g a) := by
  obtain ⟨h1, h2, -⟩ := foldl_establish (φ := fun _ _ => True) hrefl htrans
    (fun _ _ _ _ _ => trivial) l a (fun a b hb ha => ⟨(h a b hb ha).1, (h a b hb ha).2, trivial⟩) ha
  exact ⟨h1, h2⟩

/-! ## Folds that may fail -/

section Option

variable {g : α → β → Option α}

/-- A fold that succeeds establishes `φ` at every entry. -/
theorem foldlM_establish {φ : β → α → Prop} : ∀ {l : List β} {a r : α},
    (∀ a a', ∀ b ∈ l, g a b = some a' → (∀ x, φ x a → φ x a') ∧ φ b a') → l.foldlM g a = some r →
      (∀ x, φ x a → φ x r) ∧ ∀ b ∈ l, φ b r
  | [], a, r, _, h => by
    obtain rfl : a = r := by simpa using h
    exact ⟨fun _ => id, by simp⟩
  | b :: l, a, r, hstep, h => by
    rw [List.foldlM_cons, Option.bind_eq_bind, Option.bind_eq_some_iff] at h
    obtain ⟨a', ha', h⟩ := h
    obtain ⟨hkeep, hall⟩ :=
      foldlM_establish (fun a a' x hx => hstep a a' x (List.mem_cons_of_mem _ hx)) h
    obtain ⟨hkeep', hb⟩ := hstep a a' b (List.mem_cons_self ..) ha'
    refine ⟨fun x hx => hkeep x (hkeep' x hx), fun x hx => ?_⟩
    obtain rfl | hx := List.mem_cons.mp hx
    · exact hkeep x hb
    · exact hall x hx

/-- A fold all of whose steps succeed and keep `I` succeeds and keeps `I`. -/
theorem foldlM_inv : ∀ {l : List β} {a : α}, (∀ a, ∀ b ∈ l, I a → ∃ a', g a b = some a' ∧ I a') → I a →
    ∃ r, l.foldlM g a = some r ∧ I r
  | [], a, _, ha => ⟨a, rfl, ha⟩
  | b :: l, a, h, ha => by
    obtain ⟨a', ha', hI⟩ := h a b (List.mem_cons_self ..) ha
    obtain ⟨r, hr, hIr⟩ := foldlM_inv (l := l) (fun a x hx => h a x (List.mem_cons_of_mem _ hx)) hI
    exact ⟨r, by rw [List.foldlM_cons, ha']; exact hr, hIr⟩

/-- The same for an invariant of the entries done. -/
theorem foldlM_prefix {I : List β → α → Prop} : ∀ {l d : List β} {a : α},
    (∀ a d' b, d' ++ [b] <+: d ++ l → I d' a → ∃ a', g a b = some a' ∧ I (d' ++ [b]) a') → I d a →
      ∃ r, l.foldlM g a = some r ∧ I (d ++ l) r
  | [], d, a, _, ha => ⟨a, rfl, by rwa [List.append_nil]⟩
  | b :: l, d, a, h, ha => by
    have heq : d ++ b :: l = d ++ [b] ++ l := by simp
    rw [heq] at h ⊢
    obtain ⟨a', ha', hI⟩ := h a d b (List.prefix_append _ _) ha
    obtain ⟨r, hr, hIr⟩ := foldlM_prefix h hI
    exact ⟨r, by rw [List.foldlM_cons, ha']; exact hr, hIr⟩

/-- What a fold that succeeds keeps, as an invariant of the entries done. -/
theorem foldlM_done {I : List β → α → Prop} : ∀ {l d : List β} {a r : α},
    (∀ a a' d' b, d' ++ [b] <+: d ++ l → g a b = some a' → I d' a → I (d' ++ [b]) a') → l.foldlM g a = some r →
      I d a → I (d ++ l) r
  | [], d, a, r, _, h, ha => by
    obtain rfl : a = r := by simpa using h
    rwa [List.append_nil]
  | b :: l, d, a, r, hstep, h, ha => by
    rw [List.foldlM_cons, Option.bind_eq_bind, Option.bind_eq_some_iff] at h
    obtain ⟨a', ha', h⟩ := h
    have heq : d ++ b :: l = d ++ [b] ++ l := by simp
    rw [heq] at hstep ⊢
    exact foldlM_done hstep h (hstep a a' d b (List.prefix_append _ _) ha' ha)

/-- A fold all of whose steps succeed succeeds. -/
theorem foldlM_total : ∀ {l : List β} {a : α}, (∀ a, ∀ b ∈ l, ∃ a', g a b = some a') →
    ∃ r, l.foldlM g a = some r
  | [], a, _ => ⟨a, rfl⟩
  | b :: l, a, h => by
    obtain ⟨a', ha'⟩ := h a b (List.mem_cons_self ..)
    obtain ⟨r, hr⟩ := foldlM_total (l := l) (a := a') fun a x hx => h a x (List.mem_cons_of_mem _ hx)
    exact ⟨r, by rw [List.foldlM_cons, ha']; exact hr⟩

/-- Mapping a function that may fail. -/
theorem mapM_eq_some {f : β → Option α} : ∀ {l : List β} {r : List α},
    l.mapM f = some r ↔ List.Forall₂ (fun b a => f b = some a) l r
  | [], r => by simp [eq_comm]
  | b :: l, r => by
    simp only [List.mapM_cons, Option.pure_def, Option.bind_eq_bind, Option.bind_eq_some_iff,
      Option.some.injEq, List.forall₂_cons_left_iff]
    constructor
    · rintro ⟨a, ha, as, has, rfl⟩
      exact ⟨a, as, ha, mapM_eq_some.mp has, rfl⟩
    · rintro ⟨a, as, ha, has, rfl⟩
      exact ⟨a, ha, as, mapM_eq_some.mpr has, rfl⟩

theorem exists_of_mapM {f : β → Option α} {l : List β} {r : List α} (h : l.mapM f = some r) {b : β}
    (hb : b ∈ l) : ∃ a ∈ r, f b = some a := by
  have h := mapM_eq_some.mp h
  induction h with
  | nil => cases hb
  | cons ha _ ih =>
    obtain rfl | hb := List.mem_cons.mp hb
    · exact ⟨_, List.mem_cons_self .., ha⟩
    · obtain ⟨a, ha, hfa⟩ := ih (mapM_eq_some.mpr ‹_›) hb
      exact ⟨a, List.mem_cons_of_mem _ ha, hfa⟩

theorem getElem?_of_mapM {f : β → Option α} {l : List β} {r : List α} (h : l.mapM f = some r) {i : ℕ} {b : β}
    (hb : l[i]? = some b) : ∃ a, r[i]? = some a ∧ f b = some a := by
  have h := mapM_eq_some.mp h
  induction h generalizing i with
  | nil => simp at hb
  | cons ha _ ih =>
    cases i with
    | zero =>
      obtain rfl := Option.some.inj hb
      exact ⟨_, rfl, ha⟩
    | succ i => exact ih (mapM_eq_some.mpr ‹_›) hb

theorem exists_of_mem_mapM {f : β → Option α} {l : List β} {r : List α} (h : l.mapM f = some r)
    {a : α} (ha : a ∈ r) : ∃ b ∈ l, f b = some a := by
  have h := mapM_eq_some.mp h
  induction h with
  | nil => cases ha
  | cons hb _ ih =>
    obtain rfl | ha := List.mem_cons.mp ha
    · exact ⟨_, List.mem_cons_self .., hb⟩
    · obtain ⟨b, hb, hfb⟩ := ih (mapM_eq_some.mpr ‹_›) ha
      exact ⟨b, List.mem_cons_of_mem _ hb, hfb⟩

/-- Mapping a function that does not fail on any entry. -/
theorem mapM_total {f : β → Option α} : ∀ {l : List β}, (∀ b ∈ l, ∃ a, f b = some a) →
    ∃ r, l.mapM f = some r
  | [], _ => ⟨[], rfl⟩
  | b :: l, h => by
    obtain ⟨a, ha⟩ := h b (List.mem_cons_self ..)
    obtain ⟨r, hr⟩ := mapM_total fun x hx => h x (List.mem_cons_of_mem _ hx)
    exact ⟨a :: r, by simp [ha, hr]⟩

/-- A map that keeps keys keeps the list of keys. -/
theorem map_of_mapM {κ : Type*} {f : β → Option α} {key : β → κ} {key' : α → κ}
    (hkey : ∀ b a, f b = some a → key' a = key b) {l : List β} {r : List α}
    (h : l.mapM f = some r) : r.map key' = l.map key := by
  have h := mapM_eq_some.mp h
  induction h with
  | nil => rfl
  | cons hba _ ih => rw [List.map_cons, List.map_cons, hkey _ _ hba, ih (mapM_eq_some.mpr ‹_›)]

/-- Looking an entry up commutes with mapping, if the map keeps what is looked up. -/
theorem find?_mapM {f : β → Option α} {q : β → Bool} {q' : α → Bool}
    (hq : ∀ b a, f b = some a → q' a = q b) {l : List β} {r : List α} (h : l.mapM f = some r) :
    r.find? q' = (l.find? q).bind f := by
  have h := mapM_eq_some.mp h
  induction h with
  | nil => rfl
  | @cons b a l r hba _ ih =>
    rw [List.find?_cons, List.find?_cons, hq b a hba]
    cases q b with
    | true => simp [hba]
    | false => exact ih (mapM_eq_some.mpr ‹_›)

end Option

/-- Entries with keys of their own are found under them. -/
theorem find?_key {κ : Type*} [DecidableEq κ] {key : β → κ} : ∀ {l : List β}, (l.map key).Nodup →
    ∀ b ∈ l, l.find? (key · = key b) = some b
  | b' :: l, hnodup, b, hb => by
    obtain ⟨hnotin, hnodup⟩ := List.nodup_cons.mp hnodup
    obtain rfl | hb := List.mem_cons.mp hb
    · simp
    · have hne : key b' ≠ key b := fun h => hnotin (h ▸ List.mem_map_of_mem hb)
      simpa [List.find?_cons, hne] using find?_key hnodup b hb

/-- Where keys are different, the order of the entries does not matter. -/
theorem find?_key_reverse {κ : Type*} [DecidableEq κ] {key : β → κ} {l : List β}
    (h : (l.map key).Nodup) (k : κ) : l.reverse.find? (key · = k) = l.find? (key · = k) := by
  have hrev : (l.reverse.map key).Nodup := by rwa [List.map_reverse, List.nodup_reverse]
  cases hb : l.find? (key · = k) with
  | none => simpa [List.find?_eq_none] using hb
  | some b =>
    obtain rfl : key b = k := by simpa using List.find?_some hb
    exact find?_key hrev b (List.mem_reverse.mpr (List.mem_of_find?_eq_some hb))

/-- Where all that the entries have is different, only one of them has it. -/
theorem eq_of_nodup_flatMap {l : List β} {f : β → List α} (h : (l.flatMap f).Nodup) {b b' : β} {a : α}
    (hb : b ∈ l) (hb' : b' ∈ l) (ha : a ∈ f b) (ha' : a ∈ f b') : b = b' := by
  by_contra hne
  have : Std.Symm (Function.onFun List.Disjoint f) := ⟨fun _ _ hd _ hx hx' => hd hx' hx⟩
  exact (List.nodup_flatMap.mp h).2.forall hb hb' hne ha ha'

/-! ## Lists that correspond -/

theorem exists_of_mem_left {R : α → β → Prop} : ∀ {xs : List α} {ys : List β},
    List.Forall₂ R xs ys → ∀ {x : α}, x ∈ xs → ∃ y ∈ ys, R x y
  | _, _, .nil, _, hx => absurd hx List.not_mem_nil
  | _, _, .cons h hs, x, hx => by
    obtain rfl | hx := List.mem_cons.mp hx
    · exact ⟨_, List.mem_cons_self, h⟩
    · obtain ⟨y, hy, hR⟩ := exists_of_mem_left hs hx
      exact ⟨y, List.mem_cons_of_mem _ hy, hR⟩

theorem exists_of_mem_right {R : α → β → Prop} {xs : List α} {ys : List β}
    (h : List.Forall₂ R xs ys) {y : β} (hy : y ∈ ys) : ∃ x ∈ xs, R x y :=
  exists_of_mem_left h.flip hy

/-- Entries that correspond are found under one key. -/
theorem rel_find? {κ : Type*} [DecidableEq κ] {R : α → β → Prop} {key : α → κ} {key' : β → κ}
    (hkey : ∀ {a b}, R a b → key' b = key a) {xs : List α} {ys : List β} (h : List.Forall₂ R xs ys)
    (k : κ) : Option.Rel R (xs.find? (key · = k)) (ys.find? (key' · = k)) := by
  induction h with
  | nil => exact .none
  | @cons a b _ _ hab _ ih =>
    rw [List.find?_cons, List.find?_cons, hkey hab]
    cases decide (key a = k) with
    | true => exact .some hab
    | false => exact ih

/-- Every entry has an image, so the list has one. -/
theorem exists_mapM {f : α → Option β} {R : α → β → Prop} : ∀ {xs : List α},
    (∀ x ∈ xs, ∃ y, f x = some y ∧ R x y) → ∃ ys, xs.mapM f = some ys ∧ List.Forall₂ R xs ys
  | [], _ => ⟨[], rfl, .nil⟩
  | x :: xs, h => by
    obtain ⟨⟨y, hy, hR⟩, hxs⟩ := List.forall_mem_cons.mp h
    obtain ⟨ys, hys, hRs⟩ := exists_mapM hxs
    refine ⟨y :: ys, ?_, .cons hR hRs⟩
    rw [List.mapM_cons, hy, hys]
    rfl

/-! ## Actions one after the other -/

/-- What a list of actions makes of a list, and of the state: each of them does what `P` says. -/
inductive Threaded {σ : Type*} (P : σ → α → β → σ → Prop) : σ → List α → List β → σ → Prop
  | nil (s : σ) : Threaded P s [] [] s
  | cons {s s₁ s₂ : σ} {a : α} {b : β} {as : List α} {bs : List β} : P s a b s₁ → Threaded P s₁ as bs s₂ →
      Threaded P s (a :: as) (b :: bs) s₂

universe u

namespace Threaded

variable {σ γ δ : Type*} {P : σ → α → β → σ → Prop} {s s' s₁ : σ} {as as' : List α} {bs bs' : List β}

theorem single {a : α} {b : β} (h : P s a b s') : Threaded P s [a] [b] s' := .cons h (.nil s')

theorem length_eq (h : Threaded P s as bs s') : as.length = bs.length := by
  induction h with
  | nil => rfl
  | cons _ _ ih => exact congrArg Nat.succ ih

theorem append (h : Threaded P s as bs s₁) (h' : Threaded P s₁ as' bs' s') : Threaded P s (as ++ as') (bs ++ bs') s' := by
  induction h with
  | nil => exact h'
  | cons hab _ ih => exact .cons hab (ih h')

/-- Actions on lists, one after the other. -/
theorem flatMap {g : γ → List α} {g' : δ → List β} {cs : List γ} {ds : List δ}
    (h : Threaded (fun s c d s' => Threaded P s (g c) (g' d) s') s cs ds s') :
    Threaded P s (cs.flatMap g) (ds.flatMap g') s' := by
  induction h with
  | nil => exact .nil _
  | cons hcd _ ih => exact hcd.append ih

theorem mono {P' : σ → α → β → σ → Prop} (h : Threaded P s as bs s') (hP : ∀ {s a b s'}, a ∈ as → P s a b s' → P' s a b s') :
    Threaded P' s as bs s' := by
  induction h with
  | nil => exact .nil _
  | cons hab _ ih =>
    exact .cons (hP (List.mem_cons_self ..) hab) (ih fun ha => hP (List.mem_cons_of_mem _ ha))

theorem of_mapM {σ δ : Type u} {P : σ → α → δ → σ → Prop} {g : α → StateM σ δ} : ∀ {as : List α} {s : σ},
    (∀ a ∈ as, ∀ s, P s a ((g a).run s).1 ((g a).run s).2) → Threaded P s as ((as.mapM g).run s).1 ((as.mapM g).run s).2
  | [], s, _ => .nil s
  | a :: as, s, h => by
    obtain ⟨ha, has⟩ := List.forall_mem_cons.mp h
    rw [List.mapM_cons]
    exact .cons (ha s) (of_mapM has)

/-- What an action keeps all of them keep, and what one does is still so at the end. -/
theorem forall₂ {Q : σ → Prop} {T : σ → σ → Prop} (hrefl : ∀ s, T s s) (htrans : ∀ {s s₁ s₂}, T s s₁ → T s₁ s₂ → T s s₂)
    (h : Threaded P s as bs s') (hQ : ∀ {s a b s'}, Q s → P s a b s' → Q s' ∧ T s s') (hs : Q s) :
    Q s' ∧ T s s' ∧ List.Forall₂ (fun a b => ∃ s₁ s₂, T s s₁ ∧ Q s₁ ∧ P s₁ a b s₂ ∧ T s₂ s') as bs := by
  induction h with
  | nil => exact ⟨hs, hrefl _, .nil⟩
  | cons hab _ ih =>
    obtain ⟨hQ₁, hT₁⟩ := hQ hs hab
    obtain ⟨hQ', hT', hall⟩ := ih hQ₁
    refine ⟨hQ', htrans hT₁ hT', .cons ⟨_, _, hrefl _, hs, hab, hT'⟩ (hall.imp ?_)⟩
    rintro a b ⟨s₁, s₂, hs₁, h⟩
    exact ⟨s₁, s₂, htrans hT₁ hs₁, h⟩

end Threaded

end MLton.Fold
