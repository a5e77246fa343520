import Mathlib.Logic.Relation
import MLton.MatchCompile.Compile

/-!
# MatchCompile/Typing — typed values and patterns, and rows that cannot be compiled

Values and patterns have the types of the source, in which a record of one field is a record; the
compiler sees their images under `loopTy`.  A vector of words has two kinds of patterns, string constants
and vector patterns, and the compiler splits a column by one kind only: `Mixes` says that some tests lead
to a column with both.
-/

namespace MLton.MatchCompile

variable (D : Datatypes) (seqIndex : ℕ)

/-! ## Values -/

mutual

/-- A value has a type; `Σ` gives the types of what references hold. -/
inductive Value.HasTy (Λ : ℕ → Ty) : Value → Ty → Prop
  | con {c : Con} {ts : List Ty} : c ≠ reff → D.conArg c ts = none →
      HasTy Λ (.con c) (.con (D.conTycon c) ts)
  | conApp {c : Con} {ts : List Ty} {t : Ty} {v : Value} : c ≠ reff → D.conArg c ts = some t →
      HasTy Λ v t → HasTy Λ (.conApp c v) (.con (D.conTycon c) ts)
  | intInf {i : ℤ} : HasTy Λ (.intInf i) .intInf
  | loc {l : ℕ} : HasTy Λ (.loc l) (.con .reff [Λ l])
  | other {n : ℕ} {tycon : Tycon} {ts : List Ty} : (∀ c, D.conTycon c ≠ tycon) →
      HasTy Λ (.other n) (.con tycon ts)
  | field {f : Field} {t : Ty} {v : Value} : HasTy Λ v t → HasTy Λ v (.record [f] [t])
  | record {fs : List Field} {ts : List Ty} {vs : List Value} : ts.length ≠ 1 → HaveTys Λ vs ts →
      HasTy Λ (.record vs) (.record fs ts)
  | vector {vs : List Value} {t : Ty} : vs.length < 2 ^ seqIndex → (∀ v ∈ vs, HasTy Λ v t) →
      HasTy Λ (.vector vs) (.vector t)
  | word {size value : ℕ} : value < 2 ^ size → HasTy Λ (.word size value) (.word size)

/-- Values have types, one each. -/
inductive Value.HaveTys (Λ : ℕ → Ty) : List Value → List Ty → Prop
  | nil : HaveTys Λ [] []
  | cons {v : Value} {t : Ty} {vs : List Value} {ts : List Ty} : HasTy Λ v t → HaveTys Λ vs ts →
      HaveTys Λ (v :: vs) (t :: ts)

end

/-! ## Patterns -/

/-- A constant has a type. -/
def constTy : Const → Ty → Prop
  | .intInf _, .intInf => True
  | .word size value, .word size' => size' = size ∧ 0 < size ∧ value < 2 ^ size
  | .wordVector size ws, .vector (.word size') => size' = size ∧ ∀ w ∈ ws, w < 2 ^ size
  | _, _ => False

namespace Pat

mutual

/-- A pattern has a type. -/
def HasTy : Pat → Ty → Prop
  | con c targs, T => c ≠ reff ∧ ∃ ts, targs = Ty.loopTys ts ∧ T = .con (D.conTycon c) ts ∧
      D.conArg c ts = none
  | conApp c targs p ty, T => ∃ ts t, targs = Ty.loopTys ts ∧ T = .con (D.conTycon c) ts ∧
      D.conArg c ts = some t ∧ ty = t.loopTy ∧ HasTy p t
  | const c _ _, T => constTy c T
  | record fs ps, T => ∃ ts, T = .record fs ts ∧ fs.length = ps.length ∧ HaveTys ps ts
  | vector ps, T => ∃ t, T = .vector t ∧ ps.length < 2 ^ seqIndex ∧ HaveTy ps t
  | wild, _ => True

/-- Patterns have types, one each. -/
def HaveTys : List Pat → List Ty → Prop
  | [], [] => True
  | p :: ps, t :: ts => HasTy p t ∧ HaveTys ps ts
  | _, _ => False

/-- Patterns have one type. -/
def HaveTy : List Pat → Ty → Prop
  | [], _ => True
  | p :: ps, t => HasTy p t ∧ HaveTy ps t

end

end Pat

namespace NestedPat

mutual

/-- A nested pattern has a type, and carries it everywhere. -/
def HasTy : NestedPat → Ty → Prop
  | con i c targs, T => i.ty = T.loopTy ∧ c ≠ reff ∧ ∃ ts, targs = Ty.loopTys ts ∧
      T = .con (D.conTycon c) ts ∧ D.conArg c ts = none
  | conApp i c targs p, T => i.ty = T.loopTy ∧ ∃ ts t, targs = Ty.loopTys ts ∧
      T = .con (D.conTycon c) ts ∧ D.conArg c ts = some t ∧ HasTy p t
  | const i c _ _, T => i.ty = T.loopTy ∧ constTy c T
  | layered i _ p, T => i.ty = T.loopTy ∧ HasTy p T
  | or i ps, T => i.ty = T.loopTy ∧ HaveTy ps T
  | record i fs ps, T => i.ty = T.loopTy ∧ ∃ ts, T = .record fs ts ∧ fs.length = ps.length ∧ HaveTys ps ts
  | var i _, T => i.ty = T.loopTy
  | vector i ps, T => i.ty = T.loopTy ∧ ∃ t, T = .vector t ∧ ps.length < 2 ^ seqIndex ∧ HaveTy ps t
  | wild i, T => i.ty = T.loopTy

def HaveTys : List NestedPat → List Ty → Prop
  | [], [] => True
  | p :: ps, t :: ts => HasTy p t ∧ HaveTys ps ts
  | _, _ => False

def HaveTy : List NestedPat → Ty → Prop
  | [], _ => True
  | p :: ps, t => HasTy p t ∧ HaveTy ps t

end

end NestedPat

/-! ## Rows that cannot be compiled -/

/-- The patterns of a row. -/
abbrev Row := List Pat

namespace Row

/-- The pattern of the first column. -/
def head (r : Row) : Pat := r.headD .wild

/-- The row asks for nothing. -/
def allWild (r : Row) : Bool := r.all Pat.isWild

end Row

/-- The first row asks for something. -/
def Undecided (rows : List Row) : Prop := ∃ r ∈ rows.head?, r.allWild = false

/-- Rows whose first pattern asks for this, or for nothing. -/
def keep (asks : Pat → Bool) (rows : List Row) : List Row :=
  rows.filter fun r => r.head.isWild || asks r.head

/-- Some row asks for this. -/
def Asked (asks : Pat → Bool) (rows : List Row) : Prop := ∃ r ∈ rows, asks r.head = true

namespace Pat

/-- The pattern asks for the constant. -/
def isConst (c : Const) : Pat → Bool
  | const c' _ _ => c' = c
  | _ => false

/-- The pattern asks for the constructor. -/
def isCon (c : Con) : Pat → Bool
  | con c' _ => c' = c
  | conApp c' _ _ _ => c' = c
  | _ => false

/-- The pattern asks for a length. -/
def isLen (n : ℕ) : Pat → Bool
  | vector ps => ps.length = n
  | _ => false

/-- The pattern asks for a record of these fields. -/
def isRecord (fs : List Field) : Pat → Bool
  | record fs' _ => fs' = fs
  | _ => false

/-- The parts of a pattern for a constructor, a vector or a record, or as many wildcards. -/
def parts (n : ℕ) : Pat → List Pat
  | conApp _ _ p _ => [p]
  | record _ ps => ps
  | vector ps => ps
  | _ => List.replicate n wild

end Pat

/-- The rows with the parts of their first patterns in front. -/
def spread (n : ℕ) (rows : List Row) : List Row := rows.map fun r => r.head.parts n ++ r.tail

/-- The constructor takes an argument, as the patterns say. -/
def Takes (c : Con) (n : ℕ) (rows : List Row) : Prop :=
  ∃ r ∈ rows, (n = 0 ∧ ∃ targs, r.head = .con c targs) ∨ (n = 1 ∧ ∃ targs p ty, r.head = .conApp c targs p ty)

/-- Every word of some size is among the constants. -/
def Handled (P : Const → Prop) : Prop := ∃ size, ∀ value < 2 ^ size, P (.word size value)

/-- **A test of the first column** leads from rows to the rows that are left. -/
inductive Tests (rows : List Row) : List Row → Prop
  | none : (∀ r ∈ rows, r.head.isWild) → Tests rows (rows.map List.tail)
  | const {c : Const} : Asked (Pat.isConst c) rows → Tests rows ((keep (Pat.isConst c) rows).map List.tail)
  | constDefault {c : Const} : Asked (Pat.isConst c) rows → ¬ Handled (fun c => Asked (Pat.isConst c) rows) →
      Tests rows ((keep (fun _ => false) rows).map List.tail)
  | con {c : Con} {n : ℕ} : Takes c n rows → Tests rows (spread n (keep (Pat.isCon c) rows))
  | conDefault {c : Con} : Asked (Pat.isCon c) rows →
      (D.conTycon c = .exn ∨ ∃ c' ∈ (D.tyconCons (D.conTycon c)).map Prod.fst, ¬ Asked (Pat.isCon c') rows) →
      Tests rows ((keep (fun _ => false) rows).map List.tail)
  | record {fs : List Field} : Asked (Pat.isRecord fs) rows → Tests rows (spread fs.length rows)
  | vector {n : ℕ} : Asked (Pat.isLen n) rows → Tests rows (spread n (keep (Pat.isLen n) rows))
  | vectorDefault {n : ℕ} : Asked (Pat.isLen n) rows →
      Tests rows ((keep (fun _ => false) rows).map List.tail)

/-- A string constant and a vector pattern meet in the first column. -/
def Clash (rows : List Row) : Prop :=
  Undecided rows ∧ (∃ c, Asked (Pat.isConst c) rows) ∧ ∃ n, Asked (Pat.isLen n) rows

/-- **Some tests lead to a column with a string constant and a vector pattern.** -/
def Mixes (rows : List Row) : Prop :=
  ∃ rows', Relation.ReflTransGen (fun rows rows' => Undecided rows ∧ Tests D rows rows') rows rows' ∧
    Clash rows'

end MLton.MatchCompile
