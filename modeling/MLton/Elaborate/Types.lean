import MLton.Machinery.Raises
import Mathlib.Order.Nat

/-!
# Elaborate/Types — the types of the elaborator

A type is a node of a union-find structure, with a time and an equality of its own, and the elaborator's
clock ticks at each declaration.  `hom` walks over a type and comes by each of its parts once.

What is only laid out in messages is left out, and so are the regions of times.  A computation that walks
over types has a number of rounds, and raises `Exn.cutOff` behind them.
-/

namespace MLton.TypeEnv

open Raises

/-! ## Names -/

/-- The clock of the elaborator. -/
abbrev Time := ℕ

/-- A type: a node of the union-find structure. -/
abbrev TypeId := ℕ
abbrev Tycon := ℕ
abbrev Tyvar := ℕ
abbrev Spine := ℕ
abbrev Extra := ℕ

/-- An error of the compiler itself, or the end of the rounds. -/
inductive Exn where
  | bug (message : String)
  | cutOff
deriving DecidableEq, Repr

inductive Field where
  | int (i : ℤ)
  | symbol (s : String)
deriving DecidableEq, Repr

def Field.le : Field → Field → Bool
  | .int n, .int n' => decide (n ≤ n')
  | .symbol s, .symbol s' => decide (s ≤ s')
  | .symbol _, .int _ => false
  | .int _, .symbol _ => true

/-- Records, of which the tuples are kept apart. -/
inductive Srecord (α : Type) where
  | tuple (v : List α)
  | record (v : List (Field × α))
deriving Repr

namespace Srecord

variable {α β : Type}

def toVector : Srecord α → List (Field × α)
  | tuple v => v.mapIdx fun i x => (.int i, x)
  | record r => r

def detupleOpt : Srecord α → Option (List α)
  | tuple t => some t
  | record _ => none

def range : Srecord α → List α
  | tuple t => t
  | record r => r.map Prod.snd

def isTuple (v : List (Field × α)) : Bool :=
  (v.mapIdx fun i x => decide (x.1 = .int i)).all id

def fromVector (v : List (Field × α)) : Srecord α :=
  let v := v.mergeSort fun x y => x.1.le y.1
  if isTuple v ∧ v.length ≠ 1 then tuple (v.map Prod.snd) else record v

/-- The record with other things in its fields: what `map` gives. -/
def withRange (r : Srecord α) (bs : List β) : Srecord β :=
  match r with
  | tuple _ => tuple bs
  | record r => record ((r.map Prod.fst).zip bs)

end Srecord

/-! ## What types are made of -/

inductive AdmitsEquality where
  | always
  | sometimes
  | never
deriving DecidableEq, Repr

inductive Overload where
  | char
  | int
  | real
  | word
deriving DecidableEq, Repr

/-- What is known of a type constructor, and the overloaded constants that can have it as their type. -/
structure TyconInfo where
  admitsEquality : AdmitsEquality
  time : Time
  overload : Option Overload
deriving Repr

structure TyvarInfo where
  isEquality : Bool
  time : Time
deriving Repr

def Overload.matchesTycon (ov : Overload) (c : TyconInfo) : Bool := c.overload = some ov

inductive Equality where
  | false
  | true
  | unknown
deriving DecidableEq, Repr

namespace Equality

def and2 : Equality → Equality → Equality
  | false, _ => false
  | _, false => false
  | true, e2 => e2
  | e1, true => e1
  | unknown, unknown => unknown

def andV (es : List Equality) : Equality := es.foldl (fun e x => and2 x e) true

def or2 : Equality → Equality → Equality
  | false, e2 => e2
  | e1, false => e1
  | true, _ => true
  | _, true => true
  | unknown, unknown => unknown

def join : Equality → Equality → Except Exn Equality
  | unknown, e2 => .ok e2
  | e1, unknown => .ok e1
  | false, false => .ok false
  | true, true => .ok true
  | _, _ => .error (.bug "TypeEnv.Equality.join")

def applyTycon (c : TyconInfo) (es : List Equality) : Equality :=
  match c.admitsEquality with
  | .always => true
  | .sometimes => andV es
  | .never => false

def fromBool (b : Bool) : Equality := if b then true else false

end Equality

def Overload.admitsEquality : Overload → Equality
  | char => .true
  | int => .true
  | real => .false
  | word => .true

structure Unknown where
  canGeneralize : Bool
  id : ℕ
deriving DecidableEq, Repr

inductive Ty where
  | con (c : Tycon) (ts : List TypeId)
  | flexRecord (fields : List (Field × TypeId)) (spine : Spine)
  | genFlexRecord (extra : Extra) (fields : List (Field × TypeId)) (spine : Spine)
  | overload (ov : Overload)
  | record (r : Srecord TypeId)
  | unknown (u : Unknown)
  | var (a : Tyvar)
deriving Repr

def Ty.components : Ty → List TypeId
  | con _ ts => ts
  | flexRecord fields _ => fields.map Prod.snd
  | genFlexRecord _ fields _ => fields.map Prod.snd
  | record r => r.range
  | overload _ | unknown _ | var _ => []

/-- What the nodes of one set share: a cell for their equality, one for their time, and the type. -/
structure Cell where
  equality : ℕ
  time : ℕ
  ty : Ty
deriving Repr

structure SpineBody where
  fields : List Field
  more : Bool
deriving Repr

/-- **The state of the elaborator's types.** -/
structure Env where
  clock : Time
  next : TypeId
  root : TypeId → TypeId
  cells : TypeId → Cell
  equalities : ℕ → Equality
  times : ℕ → Time
  nextUnknown : ℕ
  nextSpine : Spine
  spineRoot : Spine → Spine
  spines : Spine → SpineBody
  nextTyvar : Tyvar
  tyvars : Tyvar → TyvarInfo
  nextTycon : Tycon
  tycons : Tycon → TyconInfo
  nextExtra : Extra
  extras : Extra → List (Field × Tyvar)

namespace Env

/-- The state at the start, with the primitive type constructors. -/
def start (nextTycon : Tycon) (tycons : Tycon → TyconInfo) : Env where
  clock := 0
  next := 0
  root := id
  cells := fun t => ⟨t, t, .record (.tuple [])⟩
  equalities := fun _ => .true
  times := fun _ => 0
  nextUnknown := 0
  nextSpine := 0
  spineRoot := id
  spines := fun _ => ⟨[], true⟩
  nextTyvar := 0
  tyvars := fun _ => ⟨false, 0⟩
  nextTycon := nextTycon
  tycons := tycons
  nextExtra := 0
  extras := fun _ => []

variable (σ : Env)

/-- What is in the set of a type. -/
def cell (t : TypeId) : Cell := σ.cells (σ.root t)

def equality (t : TypeId) : Equality := σ.equalities (σ.cell t).equality

def time (t : TypeId) : Time := σ.times (σ.cell t).time

def getTy (t : TypeId) : Ty := (σ.cell t).ty

/-- The body of a spine. -/
def spine (s : Spine) : SpineBody := σ.spines (σ.spineRoot s)

/-- A new node, in a set of its own. -/
def make (equality : Equality) (time : Time) (ty : Ty) : Env :=
  { σ with
    next := σ.next + 1
    cells := Function.update σ.cells σ.next ⟨σ.next, σ.next, ty⟩
    equalities := Function.update σ.equalities σ.next equality
    times := Function.update σ.times σ.next time }

def setTime (t : TypeId) (time : Time) : Env :=
  { σ with times := Function.update σ.times (σ.cell t).time time }

def setEquality (t : TypeId) (equality : Equality) : Env :=
  { σ with equalities := Function.update σ.equalities (σ.cell t).equality equality }

def setCell (t : TypeId) (cell : Cell) : Env := { σ with cells := Function.update σ.cells (σ.root t) cell }

def setTy (t : TypeId) (ty : Ty) : Env := σ.setCell t { σ.cell t with ty := ty }

/-- The sets of two types put together. -/
def union (t t' : TypeId) : Env :=
  { σ with root := fun n => if σ.root n = σ.root t' then σ.root t else σ.root n }

def setSpine (s : Spine) (body : SpineBody) : Env :=
  { σ with spines := Function.update σ.spines (σ.spineRoot s) body }

end Env

/-- What the elaborator does with its types. -/
abbrev Elaborates := Raises Exn Env

/-! ## Spines, and type variables -/

/-- The elaborator's clock goes on. -/
def tick : Elaborates Unit := modify fun σ => { σ with clock := 1 + σ.clock }

def makeNoname (equality : Bool) : Elaborates Tyvar := fun σ =>
  (.ok σ.nextTyvar,
    { σ with
      nextTyvar := σ.nextTyvar + 1
      tyvars := Function.update σ.tyvars σ.nextTyvar ⟨equality, σ.clock⟩ })

def makeTycon (admitsEquality : AdmitsEquality) : Elaborates Tycon := fun σ =>
  (.ok σ.nextTycon,
    { σ with
      nextTycon := σ.nextTycon + 1
      tycons := Function.update σ.tycons σ.nextTycon ⟨admitsEquality, σ.clock, none⟩ })

namespace Spine

def new (fields : List Field) : Elaborates Spine := fun σ =>
  (.ok σ.nextSpine,
    { σ with
      nextSpine := σ.nextSpine + 1
      spines := Function.update σ.spines σ.nextSpine ⟨fields, true⟩ })

def ensureField (s : Spine) (f : Field) : Elaborates Bool := do
  let body := (← get).spine s
  if f ∈ body.fields then pure true
  else if body.more then
    modify fun σ => σ.setSpine s { body with fields := f :: body.fields }
    pure true
  else pure false

def noMoreFields (s : Spine) : Elaborates Unit :=
  modify fun σ => σ.setSpine s { σ.spine s with more := false }

def unify (s s' : Spine) : Elaborates Unit := modify fun σ =>
  { σ with
    spineRoot := fun n => if σ.spineRoot n = σ.spineRoot s' then σ.spineRoot s else σ.spineRoot n
    spines := Function.update σ.spines (σ.spineRoot s)
      { fields := (σ.spine s').fields.foldl (fun l x => if x ∈ l then l else x :: l) (σ.spine s).fields
        more := (σ.spine s).more && (σ.spine s').more } }

/-- Over the fields of the spine that are not among those given. -/
def foldOverNew {α β : Type} (s : Spine) (fs : List (Field × α)) (ac : β)
    (g : Field → β → Elaborates β) : Elaborates β := do
  let σ ← get
  ((σ.spine s).fields.filter fun f => f ∉ fs.map Prod.fst).foldlM (fun ac f => g f ac) ac

end Spine

/-! ## Making types -/

namespace Typ

def make (equality : Equality) (time : Time) (ty : Ty) : Elaborates TypeId := fun σ =>
  (.ok σ.next, σ.make equality time ty)

def newTy (ty : Ty) : Elaborates TypeId := do
  let σ ← get
  match ty with
  | .con c ts =>
    make (.applyTycon (σ.tycons c) (ts.map σ.equality))
      (ts.foldl (fun t' t => max (σ.time t) t') (σ.tycons c).time) ty
  | .genFlexRecord .. => raise (.bug "TypeEnv.Type.newTy: GenFlexRecord")
  | .flexRecord .. => make .unknown σ.clock ty
  | .overload ov => make ov.admitsEquality 0 ty
  | .record r =>
    make (r.range.foldl (fun e' t => .and2 (σ.equality t) e') .true)
      (r.range.foldl (fun t' t => max (σ.time t) t') 0) ty
  | .unknown _ => raise (.bug "TypeEnv.Type.newTy: Unknown")
  | .var a => make (.fromBool (σ.tyvars a).isEquality) (σ.tyvars a).time ty

def unknown (canGeneralize : Bool) (equality : Equality) (time : Time) : Elaborates TypeId := do
  let u : Unknown := { canGeneralize, id := (← get).nextUnknown }
  modify fun σ => { σ with nextUnknown := σ.nextUnknown + 1 }
  make equality time (.unknown u)

def new : Elaborates TypeId := do unknown true .unknown (← get).clock

def newFlex (fields : List (Field × TypeId)) (spine : Spine) : Elaborates TypeId :=
  newTy (.flexRecord fields spine)

def flexRecord (record : Srecord TypeId) : Elaborates TypeId := do
  let spine ← Spine.new (record.toVector.map Prod.fst)
  newFlex record.toVector spine

def record (r : Srecord TypeId) : Elaborates TypeId := newTy (.record r)

def tuple : List TypeId → Elaborates TypeId
  | [t] => pure t
  | ts => newTy (.record (.tuple ts))

/-- The type constructor of the tuples. -/
def tupleTycon : Tycon := 0

def con (c : Tycon) (ts : List TypeId) : Elaborates TypeId :=
  if c = tupleTycon then tuple ts else newTy (.con c ts)

def var (a : Tyvar) : Elaborates TypeId := newTy (.var a)

end Typ

/-! ## Walking over a type -/

/-- What a walk does at each kind of type. -/
structure Hom (τ β : Type) where
  con : TypeId → Tycon → List β → Raises Exn τ β
  flexRecord : TypeId → List (Field × β) → Spine → Raises Exn τ β
  genFlexRecord : TypeId → Extra → List (Field × β) → Spine → Raises Exn τ β
  guard : TypeId → Raises Exn τ (Option β)
  overload : TypeId → Overload → Raises Exn τ β
  record : TypeId → Srecord β → Raises Exn τ β
  recursive : TypeId → Raises Exn τ β
  unknown : TypeId → Unknown → Raises Exn τ β
  var : TypeId → Tyvar → Raises Exn τ β

/-- How far a walk is with a type. -/
inductive Status (β : Type) where
  | unseen
  | processing
  | seen (b : β)

variable {τ β : Type}

/-- What is done at a type, once there is a result for each of its parts. -/
def Hom.apply (z : Hom τ β) (t : TypeId) (ty : Ty) (bs : List β) : Raises Exn τ β :=
  match ty with
  | .con c _ => z.con t c bs
  | .flexRecord fields spine => z.flexRecord t ((fields.map Prod.fst).zip bs).reverse spine
  | .genFlexRecord extra fields spine => z.genFlexRecord t extra ((fields.map Prod.fst).zip bs).reverse spine
  | .overload ov => z.overload t ov
  | .record r => z.record t (r.withRange bs)
  | .unknown u => z.unknown t u
  | .var a => z.var t a

/-- How far a walk is with all types. -/
abbrev Memo (β : Type) := TypeId → Status β

/-- What the walk does, beside its memory. -/
def visit {α : Type} (x : Raises Exn τ α) : Raises Exn (τ × Memo β) α := zoom Prod.fst (fun t s => (t, s.2)) x

def mark (t : TypeId) (status : Status β) : Raises Exn (τ × Memo β) Unit :=
  modify fun s => (s.1, Function.update s.2 t status)

/-- The walk, over a state in which the types can be looked up. -/
def homAt (env : τ → Env) (z : Hom τ β) : ℕ → TypeId → Raises Exn (τ × Memo β) β
  | 0, _ => raise .cutOff
  | k + 1, t => do
    let s ← get
    let r := (env s.1).root t
    match s.2 r with
    | .seen res => pure res
    | .processing => visit (z.recursive t)
    | .unseen =>
      match ← visit (z.guard t) with
      | some res =>
        mark r (.seen res)
        pure res
      | none =>
        mark r .processing
        let ty := (env (← get).1).getTy t
        let bs ← each (homAt env z k) ty.components
        let res ← visit (z.apply t ty bs)
        mark r (.seen res)
        pure res

/-- A walk over several types, with one memory. -/
def homs (env : τ → Env) (z : Hom τ β) (k : ℕ) (ts : List TypeId) : Raises Exn τ (List β) :=
  zoom (fun t => (t, fun _ => .unseen)) (fun s _ => s.1) (each (homAt env z k) ts)

def hom (env : τ → Env) (z : Hom τ β) (k : ℕ) (t : TypeId) : Raises Exn τ β :=
  zoom (fun t => (t, fun _ => .unseen)) (fun s _ => s.1) (homAt env z k t)

end MLton.TypeEnv
