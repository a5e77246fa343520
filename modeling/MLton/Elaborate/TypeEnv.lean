import MLton.Elaborate.Types

/-!
# Elaborate/TypeEnv — unification, and the generalisation of types

A type is later than another one if its time is.  An unknown is unified with a type through `checkTime`,
which makes the type as early as the unknown, or through `checkEquality`, which makes it an equality type.
`close` turns the unknowns and flexible records that are later than its declaration into type variables and
generic ones.

What is laid out for messages is left out: a walk that checks a type says only whether there is a violation,
and gives the type without it.
-/

namespace MLton.TypeEnv

open Raises

/-- Whether there is a violation in a type, and the type without it. -/
abbrev Checked := Bool × TypeId

/-- The fields with their checked types. -/
def checkedFields (fields : List (Field × Checked)) : List (Field × TypeId) :=
  fields.map fun x => (x.1, x.2.2)

/-! Nothing, if there is no violation in a part, and else the type made of the checked parts. -/

def checkedCon (c : Tycon) (rs : List Checked) : Elaborates (Option TypeId) :=
  if rs.all fun r => !r.1 then pure none else some <$> Typ.con c (rs.map Prod.snd)

def checkedFlexRecord (fields : List (Field × Checked)) (spine : Spine) : Elaborates (Option TypeId) :=
  if fields.all fun x => !x.2.1 then pure none else some <$> Typ.newFlex (checkedFields fields) spine

def checkedRecord (r : Srecord Checked) : Elaborates (Option TypeId) :=
  match r.detupleOpt with
  | none =>
    if r.toVector.all fun x => !x.2.1 then pure none
    else some <$> Typ.record (.fromVector (checkedFields r.toVector))
  | some rs =>
    if rs.all fun r => !r.1 then pure none else some <$> Typ.tuple (rs.map Prod.snd)

/-! ## Equality types -/

namespace CheckEquality

/-- What stands in the place of a violation. -/
def fresh : Elaborates TypeId := do Typ.unknown true .true (← get).clock

def con (c : Tycon) (rs : List Checked) : Elaborates (Option TypeId) := checkedCon c rs

def flexRecord (fields : List (Field × Checked)) (spine : Spine) : Elaborates (Option TypeId) :=
  checkedFlexRecord fields spine

def overload : Overload → Elaborates (Option TypeId)
  | .real => some <$> fresh
  | _ => raise (.bug "TypeEnv.Type.checkEquality.overload")

def record (r : Srecord Checked) : Elaborates (Option TypeId) := checkedRecord r

def unknown (t : TypeId) : Elaborates (Option TypeId) := do
  match (← get).equality t with
  | .false => some <$> fresh
  | .true => pure none
  | .unknown => pure none

def var (a : Tyvar) : Elaborates (Option TypeId) := do
  if ((← get).tyvars a).isEquality then raise (.bug "TypeEnv.Type.checkEquality.var")
  else some <$> fresh

def wrap (t : TypeId) (x : Elaborates (Option TypeId)) : Elaborates Checked := do
  match ← x with
  | none =>
    modify fun σ => σ.setEquality t .true
    pure (false, t)
  | some t' => pure (true, t')

def guard (t : TypeId) : Elaborates (Option Checked) := do
  let σ ← get
  if σ.equality t = .true then pure (some (false, t))
  else
    match σ.getTy t with
    | .con c _ =>
      match (σ.tycons c).admitsEquality with
      | .always => pure (some (false, t))
      | .sometimes => pure none
      | .never =>
        let ty ← fresh
        pure (some (true, ty))
    | _ => pure none

/-- The walk that makes a type an equality type. -/
def walk : Hom Env Checked where
  con t c rs := wrap t (con c rs)
  flexRecord t fields spine := wrap t (flexRecord fields spine)
  genFlexRecord _ _ _ _ := raise (.bug "TypeEnv.Type.checkEquality.genFlexRecord")
  guard := guard
  overload t ov := wrap t (overload ov)
  record t r := wrap t (record r)
  recursive _ := raise (.bug "TypeEnv.Type.checkEquality.recursive")
  unknown t _ := wrap t (unknown t)
  var t a := wrap t (var a)

end CheckEquality

def checkEquality (k : ℕ) (t : TypeId) : Elaborates (Option TypeId) := do
  match ← hom id CheckEquality.walk k t with
  | (false, _) => pure none
  | (true, t) => pure (some t)

/-! ## Times -/

namespace CheckTime

variable (bound : Time)

/-- What stands in the place of a violation. -/
def fresh : Elaborates TypeId := Typ.unknown true .unknown bound

def con (c : Tycon) (rs : List Checked) : Elaborates (Option TypeId) := do
  if ((← get).tycons c).time ≤ bound then checkedCon c rs else some <$> fresh bound

def flexRecord (fields : List (Field × Checked)) (spine : Spine) : Elaborates (Option TypeId) :=
  checkedFlexRecord fields spine

def record (r : Srecord Checked) : Elaborates (Option TypeId) := checkedRecord r

def var (a : Tyvar) : Elaborates (Option TypeId) := do
  if ((← get).tyvars a).time ≤ bound then pure none else some <$> fresh bound

def wrap (t : TypeId) (x : Elaborates (Option TypeId)) : Elaborates Checked := do
  match ← x with
  | none =>
    modify fun σ => σ.setTime t bound
    pure (false, t)
  | some t' =>
    modify fun σ => σ.setTime t' bound
    pure (true, t')

def guard (t : TypeId) : Elaborates (Option Checked) := do
  if (← get).time t ≤ bound then pure (some (false, t)) else pure none

/-- The walk that makes a type no later than a bound. -/
def walk : Hom Env Checked where
  con t c rs := wrap bound t (con bound c rs)
  flexRecord t fields spine := wrap bound t (flexRecord fields spine)
  genFlexRecord _ _ _ _ := raise (.bug "TypeEnv.Type.checkTime.genFlexRecord")
  guard := guard bound
  overload t _ := wrap bound t (pure none)
  record t r := wrap bound t (record r)
  recursive _ := raise (.bug "TypeEnv.Type.checkTime.recursive")
  unknown t _ := wrap bound t (pure none)
  var t a := wrap bound t (var bound a)

end CheckTime

def checkTime (k : ℕ) (t : TypeId) (bound : Time) : Elaborates (Option TypeId) := do
  if (← get).time t ≤ bound then pure none
  else
    match ← hom id (CheckTime.walk bound) k t with
    | (false, _) => pure none
    | (true, t) => pure (some t)

/-! ## Unification -/

inductive UnifyResult where
  | notUnifiable
  | unified
deriving DecidableEq, Repr

/-- The walk that looks for an unknown. -/
def occurs (u : Unknown) : Hom Env Bool where
  con _ _ ts := pure (ts.any id)
  flexRecord _ fields _ := pure (fields.any Prod.snd)
  genFlexRecord _ _ _ _ := raise (.bug "TypeEnv.Type.unify.oneUnknown: genFlexRecord")
  guard _ := pure none
  overload _ _ := pure false
  record _ r := pure (r.range.any id)
  recursive _ := raise (.bug "TypeEnv.Type.unify.oneUnknown: recursive")
  unknown _ u' := pure (decide (u.id = u'.id))
  var _ _ := pure false

/-- An unknown and another type: the type, if the two are unifiable. -/
def oneUnknown (k : ℕ) (u : Unknown) (equality : Equality) (time : Time) (outer : TypeId) (t' : Ty)
    (outer' : TypeId) : Elaborates (Option Ty) := do
  let isCircular ← hom id (occurs u) k outer'
  if isCircular then pure none
  else
    let checked ← match equality with
      | .true => checkEquality k outer'
      | _ => checkTime k outer' time
    match checked with
    | none => pure (some t')
    | some t'' =>
      modify fun σ => σ.setTy outer (σ.getTy t'')
      pure none

/-- The fields of a flexible record that its spine has and that are not there yet. -/
def newFields (fields : List (Field × TypeId)) (spine : Spine) (equality : Equality) (time : Time) :
    Elaborates (List (Field × TypeId)) :=
  Spine.foldOverNew spine fields fields fun f fields => do
    let u ← Typ.unknown true (.or2 equality .unknown) time
    pure ((f, u) :: fields)

def flexToFlexToRecord (fields : List (Field × TypeId)) (spine : Spine) (equality : Equality) (time : Time)
    (outer : TypeId) (spine' : Spine) : Elaborates (List (Field × TypeId)) := do
  let _ ← each (spine.ensureField ·) ((← get).spine spine').fields
  let fields ← newFields fields spine equality time
  modify fun σ => σ.setTy outer (.flexRecord fields spine)
  pure fields

def flexToRigidToRecord (fields : List (Field × TypeId)) (spine : Spine) (equality : Equality) (time : Time)
    (outer : TypeId) (r' : Srecord TypeId) : Elaborates (List (Field × TypeId)) := do
  let _ ← each (spine.ensureField ·) (r'.toVector.map Prod.fst)
  spine.noMoreFields
  let fields ← newFields fields spine equality time
  let r := Srecord.fromVector fields
  modify fun σ => σ.setTy outer (.record r)
  pure r.toVector

section Parts

variable (unify : TypeId → TypeId → Elaborates UnifyResult)

/-- Each type with its counterpart. -/
def unifys (ts ts' : List TypeId) : Elaborates Bool := do
  let us ← each (fun x => unify x.1 x.2) (ts.zip ts')
  pure (us.all (· = .unified))

/-- Whether nothing is found that tells the first fields from the second ones. -/
def subset (fields fields' : List (Field × TypeId)) (skipBoth : Bool) : Elaborates Bool := do
  let same ← each (fun x => match fields'.find? fun x' => x.1 = x'.1 with
    | none => pure false
    | some x' => do
      if skipBoth then pure true
      else pure (decide ((← unify x.2 x'.2) = .unified))) fields
  pure (same.all id)

def unifyRecords (fields fields' : List (Field × TypeId)) : Elaborates Bool := do
  let ac ← subset unify fields fields' false
  let ac' ← subset unify fields' fields true
  pure (ac && ac')

/-- A type constructor's type and another one, which is `t'`. -/
def conAnd (c : Tycon) (ts : List TypeId) (t t' : Ty) : Elaborates (Option Ty) := do
  match t' with
  | .con c' ts' =>
    if c = c' then
      if ts.length ≠ ts'.length then pure none
      else if ← unifys unify ts ts' then pure (some t') else pure none
    else pure none
  | .overload ov =>
    if ts.isEmpty && ov.matchesTycon ((← get).tycons c) then pure (some t) else pure none
  | _ => pure none

/-- A flexible record and a record. -/
def oneFlex (fields : List (Field × TypeId)) (spine : Spine) (equality : Equality) (time : Time)
    (outer : TypeId) (r' : Srecord TypeId) : Elaborates (Option Ty) := do
  let fields ← flexToRigidToRecord fields spine equality time outer r'
  if ← unifyRecords unify fields r'.toVector then pure (some (.record r')) else pure none

end Parts

/-- What is done with an unknown and another type. -/
abbrev OneUnknown := Unknown → Equality → Time → TypeId → Ty → TypeId → Elaborates (Option Ty)

/-- The type that two types have in common, if they are unifiable. -/
def unifyTy (one : OneUnknown) (unify : TypeId → TypeId → Elaborates UnifyResult) (s s' : TypeId) :
    Elaborates (Option Ty) := do
  let σ ← get
  let genFlexError : Elaborates (Option Ty) := raise (.bug "TypeEnv.Type.unify: GenFlexRecord")
  match σ.getTy s, σ.getTy s' with
  | .unknown r, .unknown r' =>
    match σ.equality s, σ.equality s' with
    | .true, .false => pure none
    | .false, .true => pure none
    | _, _ =>
      modify fun σ => { σ with nextUnknown := σ.nextUnknown + 1 }
      pure (some (.unknown { canGeneralize := r.canGeneralize && r'.canGeneralize, id := σ.nextUnknown }))
  | .unknown u, t' => one u (σ.equality s) (σ.time s) s t' s'
  | t, .unknown u' => one u' (σ.equality s') (σ.time s') s' t s
  | .con c ts, t' => conAnd unify c ts (.con c ts) t'
  | t, .con c ts => conAnd unify c ts (.con c ts) t
  | .flexRecord fields spine, .record r' => oneFlex unify fields spine (σ.equality s) (σ.time s) s r'
  | .record r, .flexRecord fields' spine' => oneFlex unify fields' spine' (σ.equality s') (σ.time s') s' r
  | .flexRecord fields spine, .flexRecord fields' spine' =>
    let fs ← flexToFlexToRecord fields spine (σ.equality s) (σ.time s) s spine'
    let fs' ← flexToFlexToRecord fields' spine' (σ.equality s') (σ.time s') s' spine
    if ← unifyRecords unify fs fs' then
      Spine.unify spine spine'
      pure (some (.flexRecord
        (fields.foldl (fun ac x => if x.1 ∈ fields'.map Prod.fst then ac else x :: ac) fields') spine))
    else pure none
  | .genFlexRecord .., _ => genFlexError
  | _, .genFlexRecord .. => genFlexError
  | .overload ov1, .overload ov2 => if ov1 = ov2 then pure (some (.overload ov1)) else pure none
  | .record r, .record r' =>
    match r.detupleOpt, r'.detupleOpt with
    | none, none =>
      if ← unifyRecords unify r.toVector r'.toVector then pure (some (.record r)) else pure none
    | some ts, some ts' =>
      if ts.length = ts'.length then
        if ← unifys unify ts ts' then pure (some (.record r)) else pure none
      else pure none
    | _, _ => pure none
  | .var a, .var a' => if a = a' then pure (some (.var a)) else pure none
  | _, _ => pure none

/-- Unification, over what is done with an unknown and another type. -/
def unifyWith (one : OneUnknown) : ℕ → TypeId → TypeId → Elaborates UnifyResult
  | 0, _, _ => raise .cutOff
  | k + 1, s, s' => do
    let σ ← get
    if σ.root s = σ.root s' then pure .unified
    else
      let { equality, time, .. } := σ.cell s
      let { equality := equality', time := time', .. } := σ.cell s'
      match ← unifyTy one (unifyWith one k) s s' with
      | none => pure .notUnifiable
      | some ty =>
        modify fun σ => σ.union s s'
        modify fun σ =>
          { σ with times := Function.update σ.times time (min (σ.times time) (σ.times time')) }
        let σ ← get
        let joined ← of (Equality.join (σ.equalities equality) (σ.equalities equality'))
        modify fun σ => { σ with equalities := Function.update σ.equalities equality joined }
        modify fun σ => σ.setCell s ⟨equality, time, ty⟩
        pure .unified

def unify (k : ℕ) (s s' : TypeId) : Elaborates UnifyResult := unifyWith (oneUnknown k) k s s'

/-! ## Generalisation -/

structure GenFlexRecord where
  extra : Extra
  fields : List (Field × TypeId)
  spine : Spine
deriving Repr

/-- A type scheme. -/
inductive Scheme where
  | general (flexes : List GenFlexRecord) (tyvars : List Tyvar) (ty : TypeId)
  | mono (ty : TypeId)
deriving Repr

/-- The state of the walk that generalises: the generic records and the type variables so far. -/
structure Closing where
  env : Env
  flexes : List GenFlexRecord
  tyvars : List Tyvar

namespace Close

/-- What the walk does with the types. -/
def within {α : Type} (x : Elaborates α) : Raises Exn Closing α := zoom Closing.env (fun σ s => { s with env := σ }) x

def flexRecord (t : TypeId) : Raises Exn Closing Unit := do
  match (← get).env.getTy t with
  | .flexRecord fields spine =>
    let extra := (← get).env.nextExtra
    within (modify fun σ => { σ with nextExtra := extra + 1, extras := Function.update σ.extras extra [] })
    modify fun s => { s with flexes := ⟨extra, fields, spine⟩ :: s.flexes }
    within (modify fun σ => σ.setTy t (.genFlexRecord extra fields spine))
  | _ => raise (.bug "TypeEnv.close.flexRecord: not FlexRecord")

def unknown (t : TypeId) (u : Unknown) : Raises Exn Closing Unit := do
  if !u.canGeneralize then pure ()
  else
    let equality ← match (← get).env.equality t with
      | .false => pure false
      | .true => pure true
      | .unknown => do
        within (modify fun σ => σ.setEquality t .false)
        pure false
    let a ← within (makeNoname equality)
    modify fun s => { s with tyvars := a :: s.tyvars }
    within (modify fun σ => σ.setTy t (.var a))

/-- The walk that generalises what is later than the time given. -/
def walk (beforeGen : Time) : Hom Closing Unit where
  con _ _ _ := pure ()
  flexRecord t _ _ := flexRecord t
  genFlexRecord _ _ _ _ := pure ()
  guard t := do if (← get).env.time t ≤ beforeGen then pure (some ()) else pure none
  overload _ _ := pure ()
  record _ _ := pure ()
  recursive _ := pure ()
  unknown := unknown
  var _ _ := pure ()

end Close

/-- The type of a variable that is bound by a declaration. -/
structure VarType where
  isExpansive : Bool
  ty : TypeId
deriving Repr

/-- What a declaration is closed to. -/
structure Closed where
  flexes : List GenFlexRecord
  tyvars : List Tyvar
  schemes : List Scheme
deriving Repr

/-- An expansive declaration may generalise nothing. -/
def restrict (k : ℕ) (beforeGen : Time) (v : VarType) : Elaborates VarType := do
  if !v.isExpansive then pure v
  else
    match ← checkTime k v.ty beforeGen with
    | none => pure v
    | some _ => pure { v with isExpansive := false }

/-- The declaration that was begun at a time is closed. -/
def close (k : ℕ) (beforeGen : Time) (ensure : List Tyvar) (varTypes : List VarType) : Elaborates Closed := do
  let varTypes ← each (restrict k beforeGen) varTypes
  let σ ← get
  let (flexes, tyvars) ←
    if varTypes.all fun v => σ.time v.ty ≤ beforeGen then pure ([], ensure)
    else
      zoom (fun σ => (⟨σ, [], ensure⟩ : Closing)) (fun s _ => s.env) do
        let _ ← homs Closing.env (Close.walk beforeGen) k (varTypes.map VarType.ty)
        let s ← get
        pure (s.flexes, s.tyvars)
  pure ⟨flexes, tyvars, varTypes.map fun v =>
    if v.isExpansive then .mono v.ty else .general flexes tyvars v.ty⟩

/-- The type variables for the fields a generic record has been given since. -/
def extra (g : GenFlexRecord) : Elaborates (List (Field × Tyvar)) := do
  let old := (← get).extras g.extra
  let fields := old.map Prod.fst ++ g.fields.map Prod.fst
  let new ← Spine.foldOverNew g.spine (fields.map fun f => (f, ())) old fun f ac => do
    let tyvar ← makeNoname false
    pure ((f, tyvar) :: ac)
  modify fun σ => { σ with extras := Function.update σ.extras g.extra new }
  pure new

end MLton.TypeEnv
