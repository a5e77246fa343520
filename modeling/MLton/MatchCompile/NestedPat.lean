import Mathlib.Algebra.Group.Int.Defs
import Mathlib.Algebra.GroupWithZero.Nat
import MLton.Ssa.Tree

/-!
# MatchCompile/NestedPat — patterns, and what it is to match

A pattern matches a value or not, and binds its variables to parts of the value; the alternatives of an
or-pattern are tried from left to right.  `flatten` lists the patterns without alternatives that a
pattern stands for, and the first of them that matches binds what the pattern binds (`bind_flatten`).
-/

namespace MLton.MatchCompile

/-- The constants of all intermediate languages. -/
abbrev Const := Ssa.Const

/-- A record field. -/
structure Field where
  name : String
deriving DecidableEq

/-- A type constructor. -/
structure Tycon where
  id : ℕ
deriving DecidableEq

/-- The type constructors and the constructors that are known to the compiler. -/
def Tycon.exn : Tycon := ⟨0⟩
def Tycon.reff : Tycon := ⟨1⟩
def falsee : Con := ⟨0⟩
def truee : Con := ⟨1⟩
def reff : Con := ⟨2⟩

/-- Types; a reference type is `con Tycon.reff`. -/
inductive Ty where
  | con (tycon : Tycon) (targs : List Ty)
  | intInf
  | record (fs : List Field) (ts : List Ty)
  | vector (t : Ty)
  | word (size : ℕ)

namespace Ty

/-- `Type.tuple`: a tuple of one is its component. -/
def tuple : List Ty → Ty
  | [t] => t
  | ts => record [] ts

mutual

/-- `loopTy` of the defunctorizer: the compiler's types have no fields. -/
def loopTy : Ty → Ty
  | con tycon ts => con tycon (loopTys ts)
  | intInf => intInf
  | record _ ts => tuple (loopTys ts)
  | vector t => vector (loopTy t)
  | word size => word size

def loopTys : List Ty → List Ty
  | [] => []
  | t :: ts => loopTy t :: loopTys ts

end

theorem loopTys_eq_map : ∀ ts, loopTys ts = ts.map loopTy
  | [] => rfl
  | t :: ts => congrArg (loopTy t :: ·) (loopTys_eq_map ts)

/-- `Type.deTuple`. -/
def deTuple : Ty → List Ty
  | record _ ts => ts
  | _ => []

/-- `Type.deVector`. -/
def deVector : Ty → Ty
  | vector t => t
  | t => t

end Ty

/-! ## Values -/

/-- Values.  `loc` is a reference, and `other` one of no interest here, such as a function. -/
inductive Value where
  | con (c : Con)
  | conApp (c : Con) (arg : Value)
  | intInf (i : ℤ)
  | loc (l : ℕ)
  | other (n : ℕ)
  | record (vs : List Value)
  | vector (vs : List Value)
  | word (size value : ℕ)

namespace Value

mutual

/-- Structural equality. -/
def beq : Value → Value → Bool
  | con c, con c' => c = c'
  | conApp c v, conApp c' v' => c = c' && beq v v'
  | intInf i, intInf i' => i = i'
  | loc l, loc l' => l = l'
  | other n, other n' => n = n'
  | record vs, record vs' => beqs vs vs'
  | vector vs, vector vs' => beqs vs vs'
  | word size value, word size' value' => size = size' && value = value'
  | _, _ => false

def beqs : List Value → List Value → Bool
  | [], [] => true
  | v :: vs, v' :: vs' => beq v v' && beqs vs vs'
  | _, _ => false

end

mutual

theorem eq_of_beq : ∀ {v v' : Value}, beq v v' = true → v = v'
  | con _, con _, h => congrArg con (by simpa [beq] using h)
  | conApp c v, conApp c' v', h => by
    obtain ⟨hc, hv⟩ := (Bool.and_eq_true _ _).mp h
    rw [of_decide_eq_true hc, eq_of_beq hv]
  | intInf _, intInf _, h => congrArg intInf (by simpa [beq] using h)
  | loc _, loc _, h => congrArg loc (by simpa [beq] using h)
  | other _, other _, h => congrArg other (by simpa [beq] using h)
  | record vs, record vs', h => congrArg record (eq_of_beqs (by simpa [beq] using h))
  | vector vs, vector vs', h => congrArg vector (eq_of_beqs (by simpa [beq] using h))
  | word _ _, word _ _, h => by
    obtain ⟨hsize, hvalue⟩ := (Bool.and_eq_true _ _).mp h
    rw [of_decide_eq_true hsize, of_decide_eq_true hvalue]

theorem eq_of_beqs : ∀ {vs vs' : List Value}, beqs vs vs' = true → vs = vs'
  | [], [], _ => rfl
  | v :: vs, v' :: vs', h => by
    obtain ⟨hv, hvs⟩ := (Bool.and_eq_true _ _).mp h
    rw [eq_of_beq hv, eq_of_beqs hvs]

end

mutual

theorem beq_self : ∀ v : Value, beq v v = true
  | con _ | intInf _ | loc _ | other _ => by simp [beq]
  | conApp _ v => by simp [beq, beq_self v]
  | record vs => by simp [beq, beqs_self vs]
  | vector vs => by simp [beq, beqs_self vs]
  | word _ _ => by simp [beq]

theorem beqs_self : ∀ vs : List Value, beqs vs vs = true
  | [] => rfl
  | v :: vs => by simp [beqs, beq_self v, beqs_self vs]

end

instance : DecidableEq Value := fun v v' =>
  decidable_of_iff (beq v v' = true) ⟨eq_of_beq, fun h => h ▸ beq_self v⟩

/-- The `n` fields of a record; a record of one is its field. -/
def fields (n : ℕ) (v : Value) : Option (List Value) :=
  if n = 1 then some [v] else match v with
    | record vs => if vs.length = n then some vs else none
    | _ => none

/-- The argument of a constructor; that of `reff` is what the reference holds. -/
def arg (μ : ℕ → Value) (c : Con) : Value → Option Value
  | conApp c' v => if c' = c then some v else none
  | loc l => if c = reff then some (μ l) else none
  | _ => none

/-- The value of a constant. -/
def ofConst : Const → Option Value
  | .intInf i => some (intInf i)
  | .word size value => some (word size value)
  | .wordVector size ws => some (vector (ws.map (word size)))
  | _ => none

end Value

/-! ## Patterns -/

/-- What every pattern carries. -/
structure Info where
  ty : Ty
  mode : Mode

/-- `NestedPat.t`. -/
inductive NestedPat where
  | con (i : Info) (con : Con) (targs : List Ty)
  | conApp (i : Info) (con : Con) (targs : List Ty) (arg : NestedPat)
  | const (i : Info) (const : Const) (isChar isInt : Bool)
  | layered (i : Info) (x : Var) (p : NestedPat)
  | or (i : Info) (ps : List NestedPat)
  | record (i : Info) (fs : List Field) (ps : List NestedPat)
  | var (i : Info) (x : Var)
  | vector (i : Info) (ps : List NestedPat)
  | wild (i : Info)

/-- The variables of a pattern with their values, the last one first. -/
abbrev Bindings := List (Var × Value)

namespace NestedPat

/-- `NestedPat.ty`. -/
def ty : NestedPat → Ty
  | con i _ _ | conApp i _ _ _ | const i _ _ _ | layered i _ _ | or i _ | record i _ _ | var i _
  | vector i _ | wild i => i.ty

mutual

/-- Match a value, whose references are to `μ`. -/
def bind (μ : ℕ → Value) : NestedPat → Value → Option Bindings
  | con _ c _, v => if v = .con c then some [] else none
  | conApp _ c _ p, v => (v.arg μ c).bind fun w => bind μ p w
  | const _ c _ _, v => if Value.ofConst c = some v then some [] else none
  | layered _ x p, v => (bind μ p v).map (· ++ [(x, v)])
  | or _ ps, v => bindOr μ ps v
  | record _ _ ps, v => (v.fields ps.length).bind fun vs => bindAll μ ps vs
  | var _ x, v => some [(x, v)]
  | vector _ ps, .vector vs => bindAll μ ps vs
  | vector _ _, _ => none
  | wild _, _ => some []

def bindOr (μ : ℕ → Value) : List NestedPat → Value → Option Bindings
  | [], _ => none
  | p :: ps, v => (bind μ p v).or (bindOr μ ps v)

def bindAll (μ : ℕ → Value) : List NestedPat → List Value → Option Bindings
  | [], [] => some []
  | p :: ps, v :: vs => (bind μ p v).bind fun ρ => (bindAll μ ps vs).map (· ++ ρ)
  | _, _ => none

end

mutual

/-- `flatten`. -/
def flatten : NestedPat → List NestedPat
  | con i c targs => [con i c targs]
  | conApp i c targs arg => (flatten arg).map (conApp i c targs)
  | const i c isChar isInt => [const i c isChar isInt]
  | layered i x p => (flatten p).map (layered i x)
  | or _ ps => flattenOr ps
  | record i fs ps => (flattens ps).map (record i fs)
  | var i x => [var i x]
  | vector i ps => (flattens ps).map (vector i)
  | wild i => [wild i]

/-- What `flatten` does with the alternatives of an or-pattern. -/
def flattenOr : List NestedPat → List NestedPat
  | [] => []
  | p :: ps => flatten p ++ flattenOr ps

/-- `flattens`. -/
def flattens : List NestedPat → List (List NestedPat)
  | [] => [[]]
  | p :: ps => (flatten p).flatMap fun fp => (flattens ps).map (fp :: ·)

end

/-! ## The first pattern that matches -/

variable {μ : ℕ → Value}

theorem length_of_mem_flattens : ∀ {ps qs : List NestedPat}, qs ∈ flattens ps → qs.length = ps.length
  | [], qs, h => by
    rw [flattens] at h
    exact congrArg List.length (List.mem_singleton.mp h)
  | p :: ps, qs, h => by
    rw [flattens] at h
    obtain ⟨fp, -, h⟩ := List.mem_flatMap.mp h
    obtain ⟨qs, hqs, rfl⟩ := List.mem_map.mp h
    exact congrArg (· + 1) (length_of_mem_flattens hqs)

theorem findSome?_congr {α β : Type} {f g : α → Option β} :
    ∀ {xs : List α}, (∀ x ∈ xs, f x = g x) → xs.findSome? f = xs.findSome? g
  | [], _ => rfl
  | x :: xs, h => by
    obtain ⟨hx, hxs⟩ := List.forall_mem_cons.mp h
    rw [List.findSome?_cons, List.findSome?_cons, hx, findSome?_congr hxs]

theorem findSome?_flatMap {α β γ : Type} (f : α → List β) (g : β → Option γ) :
    ∀ xs : List α, (xs.flatMap f).findSome? g = xs.findSome? fun x => (f x).findSome? g
  | [] => rfl
  | x :: xs => by
    rw [List.flatMap_cons, List.findSome?_append, findSome?_flatMap f g xs, List.findSome?_cons]
    cases (f x).findSome? g <;> rfl

theorem findSome?_bind_map {α β γ δ : Type} (f : α → Option β) (o : Option γ) (h : β → γ → δ) :
    ∀ xs : List α, xs.findSome? (fun x => (f x).bind fun b => o.map (h b))
      = (xs.findSome? f).bind fun b => o.map (h b)
  | [] => rfl
  | x :: xs => by
    rw [List.findSome?_cons, findSome?_bind_map f o h xs, List.findSome?_cons]
    cases f x <;> cases o <;> simp

theorem findSome?_map_of_bind {α β γ δ : Type} (o : Option β) (g : α → Option γ) (h : β → γ → δ) :
    ∀ ys : List α, ys.findSome? (fun y => o.bind fun b => (g y).map (h b))
      = o.bind fun b => (ys.findSome? g).map (h b)
  | [] => by cases o <;> rfl
  | y :: ys => by
    rw [List.findSome?_cons, findSome?_map_of_bind o g h ys, List.findSome?_cons]
    cases o <;> cases g y <;> rfl

mutual

/-- **The alternatives in order**: a pattern binds what the first of its alternatives that matches does. -/
theorem bind_flatten : ∀ (p : NestedPat) (v : Value),
    p.bind μ v = p.flatten.findSome? fun q => q.bind μ v
  | con _ _ _, v | const _ _ _ _, v | var _ _, v | wild _, v => by simp [flatten]
  | conApp i c targs p, v => by
    rw [flatten, List.findSome?_map, bind]
    cases harg : v.arg μ c with
    | none => exact (List.findSome?_eq_none_iff.mpr fun q _ => by simp [bind, harg]).symm
    | some w => simpa [Function.comp_def, bind, harg] using bind_flatten p w
  | layered i x p, v => by
    rw [flatten, List.findSome?_map, bind, bind_flatten p v, List.map_findSome?]
    rfl
  | or _ ps, v => by
    rw [bind, flatten]
    exact bindOr_flatten ps v
  | record i fs ps, v => by
    rw [flatten, List.findSome?_map, bind]
    cases hfields : v.fields ps.length with
    | none =>
      refine (List.findSome?_eq_none_iff.mpr fun qs hqs => ?_).symm
      simp [bind, length_of_mem_flattens hqs, hfields]
    | some vs =>
      refine (bindAll_flattens ps vs).trans (findSome?_congr fun qs hqs => ?_)
      simp [bind, length_of_mem_flattens hqs, hfields]
  | vector i ps, v => by
    rw [flatten, List.findSome?_map]
    cases v with
    | vector vs => simpa [Function.comp_def, bind] using bindAll_flattens ps vs
    | _ => exact (List.findSome?_eq_none_iff.mpr fun qs _ => by simp [bind]).symm

theorem bindOr_flatten : ∀ (ps : List NestedPat) (v : Value),
    bindOr μ ps v = (flattenOr ps).findSome? fun q => q.bind μ v
  | [], _ => rfl
  | p :: ps, v => by
    rw [bindOr, flattenOr, List.findSome?_append, bind_flatten p v, bindOr_flatten ps v]

theorem bindAll_flattens : ∀ (ps : List NestedPat) (vs : List Value),
    bindAll μ ps vs = (flattens ps).findSome? fun qs => bindAll μ qs vs
  | [], vs => by simp [flattens]
  | p :: ps, [] => by
    refine (List.findSome?_eq_none_iff.mpr fun qs hqs => ?_).symm
    cases qs with
    | nil => exact absurd (length_of_mem_flattens hqs) nofun
    | cons q qs => rfl
  | p :: ps, v :: vs => by
    have hinner : ∀ fp : NestedPat, ((flattens ps).map (fp :: ·)).findSome? (bindAll μ · (v :: vs))
        = (fp.bind μ v).bind fun ρ => (bindAll μ ps vs).map (· ++ ρ) := by
      intro fp
      rw [List.findSome?_map, bindAll_flattens ps vs]
      exact findSome?_map_of_bind (fp.bind μ v) (bindAll μ · vs) (fun ρ => (· ++ ρ)) _
    rw [bindAll, flattens, findSome?_flatMap, bind_flatten p v]
    simp only [hinner]
    exact (findSome?_bind_map (fun q => bind μ q v) (bindAll μ ps vs) (fun ρ => (· ++ ρ)) _).symm

end

end NestedPat

end MLton.MatchCompile
