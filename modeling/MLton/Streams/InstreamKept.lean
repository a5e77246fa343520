import MLton.Streams.Instream

/-!
# Streams/InstreamKept — what a stream has read stays read

The list of buffers only grows, at its tail, and every stream stands somewhere in what the reader has
delivered.  A read goes over a segment of that, and once it has returned it returns the same again.
-/

namespace MLton.Streams

open Raises

variable {σ α : Type} {a : Arg α} {r : Reader σ α} {s s' : Shared σ α} {is is' is'' : Instream α}
  {next : ℕ} {vs : List (List α)}

/-! ## What has been delivered -/

/-- What has been delivered, as a sequence: its elements, and `none` for each end of the stream. -/
def items (vs : List (List α)) : List (Option α) :=
  vs.flatMap fun v => if v.isEmpty then [none] else v.map some

theorem items_append {vs ws : List (List α)} : items (vs ++ ws) = items vs ++ items ws :=
  List.flatMap_append

theorem items_cons {v : List α} (hv : v ≠ []) : items (v :: vs) = v.map some ++ items vs := by
  cases v with
  | nil => exact absurd rfl hv
  | cons c v => rfl

/-- The vectors of the buffers from a reference to the tail. -/
inductive Behind (s : Shared σ α) : ℕ → List (List α) → Prop
  | tail : Behind s s.tail []
  | link {next : ℕ} {buf : InBuf α} {vs : List (List α)} : s.cells next = .link buf → buf.inp ≠ [] →
      Behind s buf.next vs → Behind s next (buf.inp :: vs)
  | eos {next : ℕ} {buf : InBuf α} {vs : List (List α)} : s.cells next = .eos buf → buf.inp = [] →
      Behind s buf.next vs → Behind s next ([] :: vs)

/-- What is ahead of a stream, of what has been delivered. -/
def Ahead (s : Shared σ α) (is : Instream α) (rest : List (Option α)) : Prop :=
  ∃ vs, Behind s is.buf.next vs ∧ is.pos ≤ is.buf.inp.length ∧
    rest = (is.buf.inp.drop is.pos).map some ++ items vs

/-- The list of buffers ends at the tail, and references are new. -/
structure Shared.Sound (s : Shared σ α) : Prop where
  fresh : ∀ next, s.fresh ≤ next → s.cells next = .end_
  tail_lt : s.tail < s.fresh
  tail : ∀ buf, s.cells s.tail ≠ .link buf ∧ s.cells s.tail ≠ .eos buf

/-- **The list only grows**, by what is delivered. -/
structure Shared.Grows (s s' : Shared σ α) : Prop where
  kept : ∀ next, s.cells next ≠ .end_ → s'.cells next = s.cells next
  behind : ∃ ws, s'.delivered = s.delivered ++ ws ∧ ∀ next vs, Behind s next vs → Behind s' next (vs ++ ws)

instance : Preorder (Shared σ α) where
  le := Shared.Grows
  le_refl _ := ⟨fun _ _ => rfl, [], (List.append_nil _).symm, fun _ vs h => by rwa [List.append_nil]⟩
  le_trans s s' s'' h h' := by
    obtain ⟨ws, hws, hbehind⟩ := h.behind
    obtain ⟨ws', hws', hbehind'⟩ := h'.behind
    refine ⟨fun next hne => ?_, ws ++ ws', ?_, fun next vs hvs => ?_⟩
    · have heq := h.kept next hne
      exact (h'.kept next (heq ▸ hne)).trans heq
    · rw [hws', hws, List.append_assoc]
    · rw [← List.append_assoc]
      exact hbehind' _ _ (hbehind _ _ hvs)

theorem Behind.unique (hs : s.Sound) (h : Behind s next vs) {ws : List (List α)} (h' : Behind s next ws) :
    vs = ws := by
  induction h generalizing ws with
  | tail =>
    cases h' with
    | tail => rfl
    | link hcell => exact absurd hcell (hs.tail _).1
    | eos hcell => exact absurd hcell (hs.tail _).2
  | link hcell _ _ ih =>
    cases h' with
    | tail => exact absurd hcell (hs.tail _).1
    | link hcell' _ h' =>
      obtain rfl := InState.link.inj (hcell.symm.trans hcell')
      rw [ih h']
    | eos hcell' => exact absurd (hcell.symm.trans hcell') nofun
  | eos hcell _ _ ih =>
    cases h' with
    | tail => exact absurd hcell (hs.tail _).2
    | link hcell' => exact absurd (hcell.symm.trans hcell') nofun
    | eos hcell' _ h' =>
      obtain rfl := InState.eos.inj (hcell.symm.trans hcell')
      rw [ih h']

theorem Ahead.unique (hs : s.Sound) {rest rest' : List (Option α)} (h : Ahead s is rest)
    (h' : Ahead s is rest') : rest = rest' := by
  obtain ⟨vs, hvs, -, rfl⟩ := h
  obtain ⟨ws, hws, -, rfl⟩ := h'
  rw [hvs.unique hs hws]

theorem Ahead.grows {rest : List (Option α)} (h : Ahead s is rest) (hle : s ≤ s') :
    ∃ ws, s'.delivered = s.delivered ++ ws ∧ Ahead s' is (rest ++ items ws) := by
  obtain ⟨vs, hvs, hpos, rfl⟩ := h
  obtain ⟨ws, hws, hbehind⟩ := hle.behind
  exact ⟨ws, hws, vs ++ ws, hbehind _ _ hvs, hpos, by rw [items_append, List.append_assoc]⟩

/-- The stream stands here in what has been delivered. -/
def At (s : Shared σ α) (is : Instream α) (p : ℕ) : Prop :=
  p ≤ (items s.delivered).length ∧ Ahead s is ((items s.delivered).drop p)

/-- **A stream stays where it is.** -/
theorem At.grows {p : ℕ} (h : At s is p) (hle : s ≤ s') : At s' is p := by
  obtain ⟨ws, hws, hahead⟩ := h.2.grows hle
  rw [At, hws, items_append, List.length_append, List.drop_append_of_le_length h.1]
  exact ⟨Nat.le_add_right_of_le h.1, hahead⟩

/-- The stream is at the end of the stream for now, or the file has been closed. -/
def AtEnd (s : Shared σ α) (is : Instream α) : Prop :=
  ∃ rest, Ahead s is rest ∧ (rest.head? = some none ∨ rest = [] ∧ s.cells s.tail ≠ .end_)

/-- **From one stream to the next**: what is read is ahead of the one, and what is left ahead of the other. -/
def Segment (s : Shared σ α) (is is' : Instream α) (seg : List (Option α)) : Prop :=
  ∃ rest, Ahead s is (seg ++ rest) ∧ Ahead s is' rest

theorem Ahead.stay {rest : List (Option α)} (h : Ahead s is rest) : Segment s is is [] := ⟨rest, h, h⟩

theorem Segment.grows {seg : List (Option α)} (h : Segment s is is' seg) (hle : s ≤ s') :
    Segment s' is is' seg := by
  obtain ⟨rest, hseg, hrest⟩ := h
  obtain ⟨ws, hws, hahead⟩ := hseg.grows hle
  obtain ⟨ws', hws', hahead'⟩ := hrest.grows hle
  obtain rfl := List.append_cancel_left (hws.symm.trans hws')
  exact ⟨rest ++ items ws, List.append_assoc .. ▸ hahead, hahead'⟩

theorem AtEnd.grows (hs : s.Sound) (h : AtEnd s is) (hle : s ≤ s') : AtEnd s' is := by
  obtain ⟨rest, hrest, hcase⟩ := h
  obtain ⟨ws, hws, hahead⟩ := hrest.grows hle
  refine ⟨_, hahead, ?_⟩
  obtain hhead | ⟨rfl, hstop⟩ := hcase
  · refine .inl ?_
    cases rest with
    | nil => exact absurd hhead nofun
    | cons i rest => exact hhead
  · -- a list that has been stopped does not grow
    have htail := hle.kept _ hstop
    obtain ⟨ws', hws', hbehind⟩ := hle.behind
    obtain rfl := List.append_cancel_left (hws.symm.trans hws')
    have hb := hbehind _ _ (Behind.tail (s := s))
    rw [List.nil_append] at hb
    generalize htl : s.tail = next at hb
    cases hb with
    | tail => exact .inr ⟨rfl, by rw [← htl, htail]; exact hstop⟩
    | link hcell => exact absurd (htail.symm.trans (htl ▸ hcell)) (hs.tail _).1
    | eos hcell => exact absurd (htail.symm.trans (htl ▸ hcell)) (hs.tail _).2

theorem Segment.trans (hs : s.Sound) {seg seg' : List (Option α)} (h : Segment s is is' seg)
    (h' : Segment s is' is'' seg') : Segment s is is'' (seg ++ seg') := by
  obtain ⟨rest, hseg, hrest⟩ := h
  obtain ⟨rest', hseg', hrest'⟩ := h'
  obtain rfl := hrest.unique hs hseg'
  exact ⟨rest', by rwa [List.append_assoc], hrest'⟩

/-- **What a read goes over** in what has been delivered, from where the one stream stands to where the
other one stands. -/
def Passes (s : Shared σ α) (is is' : Instream α) (seg : List (Option α)) : Prop :=
  ∃ p, At s is p ∧ seg <+: (items s.delivered).drop p ∧ At s is' (p + seg.length)

theorem Segment.passes {seg : List (Option α)} {p : ℕ} (hs : s.Sound) (h : Segment s is is' seg)
    (hp : At s is p) : Passes s is is' seg := by
  obtain ⟨rest, hseg, hrest⟩ := h
  have hdrop := hp.2.unique hs hseg
  have hlen := congrArg List.length hdrop
  rw [List.length_drop, List.length_append] at hlen
  have hle := hp.1
  refine ⟨p, hp, ⟨rest, hdrop.symm⟩, by omega, ?_⟩
  rw [← List.drop_drop, hdrop, List.drop_left]
  exact hrest

theorem Passes.grows {seg : List (Option α)} (h : Passes s is is' seg) (hle : s ≤ s') :
    Passes s' is is' seg := by
  obtain ⟨p, hp, hseg, hp'⟩ := h
  refine ⟨p, hp.grows hle, ?_, hp'.grows hle⟩
  obtain ⟨ws, hws, -⟩ := hle.behind
  rw [hws, items_append, List.drop_append_of_le_length hp.1]
  exact hseg.trans (List.prefix_append _ _)

/-! ## Going on behind a buffer -/

/-- What is behind a buffer. -/
inductive Found (s : Shared σ α) (next : ℕ) : InState α → Prop
  | link {buf : InBuf α} {vs : List (List α)} : s.cells next = .link buf → buf.inp ≠ [] →
      Behind s buf.next vs → Found s next (.link buf)
  | eos {buf : InBuf α} {vs : List (List α)} : s.cells next = .eos buf → buf.inp = [] →
      Behind s buf.next vs → Found s next (.eos buf)
  | truncated : next = s.tail → s.cells next = .truncated → Found s next .truncated
  | closed : next = s.tail → s.cells next = .closed → Found s next .closed

theorem Behind.found (h : Behind s next vs) (hend : s.cells next ≠ .end_) (hs : s.Sound) :
    Found s next (s.cells next) := by
  cases h with
  | tail =>
    cases hcell : s.cells s.tail with
    | link buf => exact absurd hcell (hs.tail _).1
    | eos buf => exact absurd hcell (hs.tail _).2
    | end_ => exact absurd hcell hend
    | truncated => exact .truncated rfl hcell
    | closed => exact .closed rfl hcell
  | link hcell hne h => exact hcell ▸ .link hcell hne h
  | eos hcell hnil h => exact hcell ▸ .eos hcell hnil h

theorem Found.cell {st : InState α} (h : Found s next st) : s.cells next = st ∧ st ≠ .end_ := by
  cases h with
  | link hcell | eos hcell | truncated _ hcell | closed _ hcell => exact ⟨hcell, nofun⟩

theorem Behind.eq_tail (h : Behind s next vs) (hend : s.cells next = .end_) : next = s.tail ∧ vs = [] := by
  cases h with
  | tail => exact ⟨rfl, rfl⟩
  | link hcell | eos hcell => exact absurd (hend.symm.trans hcell) nofun

/-- **The tail is extended** by a buffer. -/
theorem link_ends (hs : s.Sound) (hend : s.cells s.tail = .end_) (inp : List α) :
    (link inp).Ends s (fun st s' => s'.Sound ∧ s ≤ s' ∧ Found s' s.tail st ∧
      st = if inp.length = 0 then .eos { inp := inp, next := s.fresh } else .link { inp := inp, next := s.fresh })
      fun _ _ => False := by
  simp only [link, refEnd, assign, ends_bind, ends_get, ends_modify, ends_pure]
  generalize hthis : (if inp.length = 0 then InState.eos { inp := inp, next := s.fresh }
    else .link { inp := inp, next := s.fresh }) = this
  generalize hs' : (⟨_, _, _, _, _⟩ : Shared σ α) = s'
  have hcells : s'.cells = Function.update (Function.update s.cells s.fresh .end_) s.tail this := by
    rw [← hs']
  have htail : s'.tail = s.fresh := by rw [← hs']
  have hfresh : s'.fresh = s.fresh + 1 := by rw [← hs']
  have hdelivered : s'.delivered = s.delivered ++ [inp] := by rw [← hs']
  have hne : s.fresh ≠ s.tail := (Nat.ne_of_lt hs.tail_lt).symm
  have hcell : s'.cells s.tail = this := by rw [hcells, Function.update_self]
  have hother : ∀ next, next ≠ s.tail → s'.cells next = s.cells next := by
    intro next hn
    rw [hcells, Function.update_of_ne hn]
    by_cases hf : next = s.fresh
    · rw [hf, Function.update_self, hs.fresh _ (Nat.le_refl _)]
    · rw [Function.update_of_ne hf]
  have hnew : s'.cells s.fresh = .end_ := (hother _ hne).trans (hs.fresh _ (Nat.le_refl _))
  have hbehind : Behind s' s.tail [inp] ∧ Found s' s.tail this := by
    have htl : Behind s' s.fresh [] := htail ▸ Behind.tail
    by_cases hinp : inp.length = 0
    · obtain rfl := List.length_eq_zero_iff.mp hinp
      rw [if_pos hinp] at hthis
      have hcell' := hcell.trans hthis.symm
      exact ⟨.eos hcell' rfl htl, hthis ▸ .eos hcell' rfl htl⟩
    · rw [if_neg hinp] at hthis
      have hcell' := hcell.trans hthis.symm
      have hnil : inp ≠ [] := fun h => hinp (List.length_eq_zero_iff.mpr h)
      have hlink := Behind.link hcell' hnil htl
      exact ⟨hlink, hthis ▸ .link hcell' hnil htl⟩
  have hkept : ∀ next, s.cells next ≠ .end_ → s'.cells next = s.cells next :=
    fun next hn => hother next fun heq => hn (heq ▸ hend)
  refine ⟨⟨fun next hn => ?_, ?_, fun buf => ?_⟩, ⟨hkept, [inp], hdelivered, fun next vs hvs => ?_⟩,
    hbehind.2, trivial⟩
  · have hlt := hs.tail_lt
    rw [hother next (by omega)]
    exact hs.fresh _ (by omega)
  · omega
  · rw [htail, hnew]
    exact ⟨(by rintro ⟨⟩), (by rintro ⟨⟩)⟩
  · induction hvs with
    | tail => exact hbehind.1
    | link hc hn _ ih => exact .link ((hkept _ (by rw [hc]; exact (by rintro ⟨⟩))).trans hc) hn ih
    | eos hc hn _ ih => exact .eos ((hkept _ (by rw [hc]; exact (by rintro ⟨⟩))).trans hc) hn ih

/-- A read of the reader: it changes nothing but the world, or extends the list. -/
theorem readWith_ends (hs : s.Sound) (hend : s.cells s.tail = .end_) (function : String)
    (readVec : Raises Exn σ (Option (List α))) :
    (readWith r function readVec).Ends s (fun o s' => s'.Sound ∧ s ≤ s' ∧ ∀ st, o = some st →
      Found s' s.tail st ∧ ((∃ buf, st = .eos buf) ∨ ∃ v w, v ≠ [] ∧ readVec s.world = (.ok (some v), w)))
      fun _ s' => s'.Sound ∧ s ≤ s' := by
  have hworld : ∀ w, ({ s with world := w } : Shared σ α).Sound ∧ s ≤ { s with world := w } := by
    intro w
    refine ⟨⟨hs.fresh, hs.tail_lt, hs.tail⟩, ⟨fun _ _ => rfl, [], (List.append_nil _).symm,
      fun next vs hvs => ?_⟩⟩
    rw [List.append_nil]
    induction hvs with
    | tail => exact .tail
    | link hc hn _ ih => exact .link hc hn ih
    | eos hc hn _ ih => exact .eos hc hn ih
  simp only [readWith, ends_bind, ends_handle, ends_zoom, liftExn, ends_raise]
  cases hread : readVec s.world with
  | mk res w =>
    rw [Ends, hread]
    obtain ⟨hsw, hle⟩ := hworld w
    rcases res with e | _ | inp
    · exact ⟨hsw, hle⟩
    · exact ⟨hsw, hle, (by rintro _ ⟨⟩)⟩
    · simp only [ends_bind, ends_pure]
      refine (link_ends hsw hend inp).mono (fun st s' => ?_) fun _ _ h => h.elim
      rintro ⟨hs', hle', hfound, hst⟩
      refine ⟨hs', hle.trans hle', fun st' heq => ?_⟩
      obtain rfl := Option.some.inj heq
      refine ⟨hfound, ?_⟩
      by_cases hinp : inp.length = 0
      · rw [if_pos hinp] at hst
        exact .inl ⟨_, hst⟩
      · exact .inr ⟨inp, w, fun hnil => hinp (by rw [hnil]; rfl), rfl⟩

/-- **An extension** of a list that ends. -/
theorem extend_ends (hs : s.Sound) (hend : s.cells s.tail = .end_) (function : String) (blocking : Bool) :
    (extend r function blocking).Ends s (fun o s' => s'.Sound ∧ s ≤ s' ∧ ∀ st, o = some st →
      Found s' s.tail st ∧ ((∃ buf, st = .eos buf) ∨ blocking = true ∨ ∃ read, r.readVecNB = some read ∧
        ∃ v w, v ≠ [] ∧ read r.chunkSize s.world = (.ok (some v), w)))
      fun _ s' => s'.Sound ∧ s ≤ s' := by
  have hsame : s.Sound ∧ s ≤ s := ⟨hs, le_refl s⟩
  simp only [extend, ends_bind, ends_get, hend]
  cases blocking with
  | true =>
    rw [if_pos rfl]
    cases r.readVec with
    | none => exact hsame
    | some readVec =>
      refine (readWith_ends hs hend function _).mono (fun o s' => ?_) fun _ _ h => h
      rintro ⟨hs', hle, hfound⟩
      exact ⟨hs', hle, fun st hst => ⟨(hfound st hst).1, .inr (.inl rfl)⟩⟩
  | false =>
    rw [if_neg Bool.false_ne_true]
    cases hread : r.readVecNB with
    | none => exact hsame
    | some readVecNB =>
      refine (readWith_ends hs hend function _).mono (fun o s' => ?_) fun _ _ h => h
      rintro ⟨hs', hle, hfound⟩
      refine ⟨hs', hle, fun st hst => ⟨(hfound st hst).1, ?_⟩⟩
      exact (hfound st hst).2.imp_right fun hv => .inr ⟨_, rfl, hv⟩

/-- What is behind a buffer, once it is known. -/
theorem doit_of_cell {function : String} {st : InState α} (hcell : s.cells next = st) (hne : st ≠ .end_) :
    doit r function next s = (.ok st, s) := by
  refine Ends.eq_ok ?_
  simp only [doit, deref, ends_bind, ends_get, ends_pure, hcell]
  cases st with
  | end_ => exact absurd rfl hne
  | link | eos | truncated | closed => exact ⟨trivial, trivial⟩

/-- **Going on behind a buffer** finds a vector, the end of the stream, or that the file has been closed, and
finds the same ever after. -/
theorem doit_settles (hs : s.Sound) (h : Behind s next vs) (function : String) :
    Settles Shared.Sound (doit r function next) s fun st s' => Found s' next st := by
  have hsettled : ∀ {s' : Shared σ α} {st : InState α}, Found s' next st →
      Settled (doit r function next) st s' := by
    intro s' st hfound s'' hle
    obtain ⟨hcell, hne⟩ := hfound.cell
    exact doit_of_cell ((hle.kept _ (hcell ▸ hne)).trans hcell) hne
  by_cases hend : s.cells next = .end_
  · obtain ⟨rfl, -⟩ := h.eq_tail hend
    have hdoit : ∀ {Q : InState α → Shared σ α → Prop} {E : Exn → Shared σ α → Prop},
        (doit r function s.tail).Ends s Q E ↔ (extendB r function).Ends s Q E := by
      intro Q E
      simp only [doit, deref, ends_bind, ends_get, ends_pure, hend]
    rw [Settles, hdoit, extendB, ends_bind]
    refine (extend_ends hs hend function true).mono (fun o s' => ?_) fun _ _ h => h
    rintro ⟨hs', hle, hfound⟩
    cases o with
    | none => exact ⟨hs', hle⟩
    | some st =>
      have hst := (hfound st rfl).1
      exact ⟨hs', hle, hsettled hst, hst⟩
  · have hfound := h.found hend hs
    rw [Settles, Ends, doit_of_cell rfl hend]
    exact ⟨hs, le_refl s, hsettled hfound, hfound⟩

/-! ## Reads -/

/-- What a read of a vector goes over: the vector, and maybe the end of the stream behind it. -/
def Vector (v : List α) (seg : List (Option α)) : Prop := seg = v.map some ∨ seg = v.map some ++ [none]

/-- What is ahead of a stream at the end of its buffer. -/
theorem Behind.ahead {buf : InBuf α} (h : Behind s buf.next vs) : Ahead s (updateBufEnd buf) (items vs) :=
  ⟨vs, h, Nat.le_refl _, by simp [updateBufEnd]⟩

theorem Behind.ahead_beg {buf : InBuf α} (h : Behind s buf.next vs) :
    Ahead s (updateBufBeg buf) (buf.inp.map some ++ items vs) :=
  ⟨vs, h, Nat.zero_le _, by simp [updateBufBeg]⟩

/-- A stream at the end of its buffer sees the next vector. -/
theorem Found.segment_link {buf buf' : InBuf α} {n : ℕ} (h : Found s buf.next (.link buf'))
    (hn : n ≤ buf'.inp.length) :
    Segment s (updateBufEnd buf) { pos := n, buf := buf' } ((buf'.inp.take n).map some) := by
  cases h with
  | @link _ vs hcell hne hbehind =>
    refine ⟨(buf'.inp.drop n).map some ++ items vs, ?_, vs, hbehind, hn, rfl⟩
    have hahead : Ahead s (updateBufEnd buf) _ := (Behind.link hcell hne hbehind).ahead
    rwa [items_cons hne, ← List.take_append_drop n buf'.inp, List.map_append, List.append_assoc] at hahead

/-- A stream at the end of its buffer sees the end of the stream. -/
theorem Found.segment_eos {buf buf' : InBuf α} (h : Found s buf.next (.eos buf')) :
    Segment s (updateBufEnd buf) (updateBufBeg buf') [none] ∧ AtEnd s (updateBufEnd buf) := by
  cases h with
  | @eos _ vs hcell hnil hbehind =>
    have hahead : Ahead s (updateBufEnd buf) _ := (Behind.eos hcell hnil hbehind).ahead
    have hrest := hbehind.ahead_beg
    rw [hnil] at hrest
    exact ⟨⟨items vs, hahead, hrest⟩, _, hahead, .inl rfl⟩

/-- A stream at the end of the last buffer of a file that is closed. -/
theorem Found.atEnd {buf : InBuf α} {st : InState α} (h : Found s buf.next st)
    (hst : st = .truncated ∨ st = .closed) :
    Segment s (updateBufEnd buf) (updateBufEnd buf) [] ∧ AtEnd s (updateBufEnd buf) := by
  have hahead : buf.next = s.tail → Ahead s (updateBufEnd buf) [] := fun htail =>
    (htail ▸ Behind.tail : Behind s buf.next []).ahead
  have hstop : buf.next = s.tail → s.cells buf.next ≠ .end_ → AtEnd s (updateBufEnd buf) := fun htail hne =>
    ⟨[], hahead htail, .inr ⟨rfl, htail ▸ hne⟩⟩
  cases h with
  | link | eos => exact absurd hst (by simp)
  | truncated htail hcell | closed htail hcell =>
    exact ⟨⟨[], hahead htail, hahead htail⟩, hstop htail (by rw [hcell]; exact nofun)⟩

/-- A stream that has come to the end of its buffer is the stream at the end of it. -/
theorem Ahead.eq_end {rest : List (Option α)} (h : Ahead s is rest) (hpos : is.buf.inp.length ≤ is.pos) :
    ∃ buf, is = updateBufEnd buf := by
  obtain ⟨vs, -, hle, -⟩ := h
  obtain ⟨pos, buf⟩ := is
  exact ⟨buf, congrArg (Instream.mk · buf) (Nat.le_antisymm hle hpos)⟩

/-- The rest of a buffer. -/
theorem Ahead.segment_take {rest : List (Option α)} (h : Ahead s is rest) {n : ℕ} (hpos : is.pos ≤ n)
    (hn : n ≤ is.buf.inp.length) :
    Segment s is { is with pos := n } (((is.buf.inp.drop is.pos).take (n - is.pos)).map some) := by
  obtain ⟨vs, hvs, -, -⟩ := h
  refine ⟨(is.buf.inp.drop n).map some ++ items vs, ⟨vs, hvs, Nat.le_trans hpos hn, ?_⟩, vs, hvs, hn, rfl⟩
  rw [← List.append_assoc, ← List.map_append]
  have hdrop : is.buf.inp.drop n = (is.buf.inp.drop is.pos).drop (n - is.pos) := by
    rw [List.drop_drop, Nat.add_sub_cancel' hpos]
  rw [hdrop, List.take_append_drop]

theorem Ahead.segment_rest {rest : List (Option α)} (h : Ahead s is rest) :
    Segment s is (updateBufEnd is.buf) ((is.buf.inp.drop is.pos).map some) := by
  have hpos : is.pos ≤ is.buf.inp.length := h.choose_spec.2.1
  have hseg := h.segment_take hpos (Nat.le_refl _)
  rwa [List.take_of_length_le (Nat.le_of_eq List.length_drop)] at hseg

theorem AtEnd.of_segment (hs : s.Sound) (h : AtEnd s is') (hseg : Segment s is is' []) : AtEnd s is := by
  obtain ⟨rest, hrest, hcase⟩ := h
  obtain ⟨rest', his, his'⟩ := hseg
  obtain rfl := hrest.unique hs his'
  exact ⟨_, his, hcase⟩

theorem concat_settles (hs : s.Sound) (vs : List (List α)) :
    Settles Shared.Sound (of (a.concat vs)) s fun v _ => v = vs.flatten := by
  refine .of hs fun v hv => ?_
  unfold Arg.concat at hv
  split at hv
  · exact (Except.ok.inj hv).symm
  · exact absurd hv nofun

theorem add_settles (hs : s.Sound) (m n : ℕ) :
    Settles Shared.Sound (of (a.add m n)) s fun l _ => l = m + n := by
  refine .of hs fun l hl => ?_
  unfold Arg.add at hl
  split at hl
  · exact (Except.ok.inj hl).symm
  · exact absurd hl nofun

theorem finish_settles (hs : s.Sound) (inps : List (List α)) (is : Instream α) :
    Settles Shared.Sound (finish a inps is) s fun res _ => res = (inps.reverse.flatten, is) :=
  (concat_settles hs _).bind fun _ _ hs' _ hv => .pure hs' (by rw [hv])

/-- **`input`** gives the next vector, or nothing at the end of the stream. -/
theorem input_settles (hs : s.Sound) {rest : List (Option α)} (h : Ahead s is rest) :
    Settles Shared.Sound (input r is) s fun res s' => ∃ seg, Segment s' is res.2 seg ∧
      (res.1 ≠ [] ∧ seg = res.1.map some ∨ res.1 = [] ∧ AtEnd s' is ∧ (seg = [none] ∨ seg = [])) := by
  unfold input
  split
  · next hpos =>
    refine .pure hs ⟨_, h.segment_rest, .inl ⟨fun hnil => ?_, rfl⟩⟩
    exact absurd (List.drop_eq_nil_iff.mp hnil) (Nat.not_le_of_lt hpos)
  · next hpos =>
    obtain ⟨buf₀, rfl⟩ := h.eq_end (Nat.le_of_not_lt hpos)
    obtain ⟨vs, hvs, -, -⟩ := id h
    refine (doit_settles hs hvs "input").bind fun st s₁ hs₁ _ hfound => ?_
    cases hfound with
    | @link buf _ hcell hne hbehind =>
      have hseg := (Found.link hcell hne hbehind).segment_link (Nat.le_refl _)
      rw [List.take_length] at hseg
      exact .pure hs₁ ⟨_, hseg, .inl ⟨hne, rfl⟩⟩
    | eos hcell hnil hbehind =>
      obtain ⟨hseg, hend⟩ := (Found.eos hcell hnil hbehind).segment_eos
      exact .pure hs₁ ⟨_, hseg, .inr ⟨rfl, hend, .inl rfl⟩⟩
    | truncated htail hcell =>
      obtain ⟨hseg, hend⟩ := (Found.truncated htail hcell).atEnd (.inl rfl)
      exact .pure hs₁ ⟨_, hseg, .inr ⟨rfl, hend, .inr rfl⟩⟩
    | closed htail hcell =>
      obtain ⟨hseg, hend⟩ := (Found.closed htail hcell).atEnd (.inr rfl)
      exact .pure hs₁ ⟨_, hseg, .inr ⟨rfl, hend, .inr rfl⟩⟩

/-- One more vector in front of a read. -/
theorem Vector.append {u v : List α} {seg : List (Option α)} (h : Vector v seg) :
    Vector (u ++ v) (u.map some ++ seg) := by
  obtain rfl | rfl := h
  · exact .inl List.map_append.symm
  · exact .inr (by rw [List.map_append, List.append_assoc])

theorem inputNLoop_settles : ∀ (k : ℕ) {s : Shared σ α} {buf : InBuf α} {vs : List (List α)}
    (inps : List (List α)) (n : ℕ), s.Sound → Behind s buf.next vs →
    Settles Shared.Sound (inputNLoop a r k buf inps n) s fun res s' => ∃ u seg,
      res.1 = inps.reverse.flatten ++ u ∧ Segment s' (updateBufEnd buf) res.2 seg ∧ Vector u seg
  | 0, _, _, _, _, _, hs, _ => .raise hs
  | k + 1, s, buf, vs, inps, n, hs, hvs => by
    refine (doit_settles hs hvs "inputN").bind fun st s₁ hs₁ _ hfound => ?_
    cases hfound with
    | @link buf' vs' hcell hne hbehind =>
      have hfound := Found.link hcell hne hbehind
      simp only
      split
      · next hn =>
        refine (finish_settles hs₁ _ _).mono fun res s' _ hle hres => ?_
        refine ⟨buf'.inp.take n, _, ?_, hres ▸ (hfound.segment_link hn).grows hle, .inl rfl⟩
        rw [hres]
        simp
      · refine (inputNLoop_settles k _ _ hs₁ hbehind).mono fun res s' hs' hle => ?_
        rintro ⟨u, seg, hres, hseg, hvec⟩
        have hfirst := (hfound.segment_link (Nat.le_refl _)).grows hle
        rw [List.take_length] at hfirst
        refine ⟨buf'.inp ++ u, _, ?_, hfirst.trans hs' hseg, hvec.append⟩
        rw [hres]
        simp
    | eos hcell hnil hbehind =>
      obtain ⟨hseg, -⟩ := (Found.eos hcell hnil hbehind).segment_eos
      obtain ⟨rest, hrest, -⟩ := id hseg
      refine (finish_settles hs₁ _ _).mono fun res s' _ hle hres => ?_
      by_cases hn : 0 < n
      · rw [if_pos hn] at hres
        exact ⟨[], [none], by rw [hres, List.append_nil], hres ▸ hseg.grows hle, .inr rfl⟩
      · rw [if_neg hn] at hres
        exact ⟨[], [], by rw [hres, List.append_nil], hres ▸ hrest.stay.grows hle, .inl rfl⟩
    | truncated htail hcell =>
      obtain ⟨hseg, -⟩ := (Found.truncated htail hcell).atEnd (.inl rfl)
      refine (finish_settles hs₁ _ _).mono fun res s' _ hle hres => ?_
      exact ⟨[], [], by rw [hres, List.append_nil], hres ▸ hseg.grows hle, .inl rfl⟩
    | closed htail hcell =>
      obtain ⟨hseg, -⟩ := (Found.closed htail hcell).atEnd (.inr rfl)
      refine (finish_settles hs₁ _ _).mono fun res s' _ hle hres => ?_
      exact ⟨[], [], by rw [hres, List.append_nil], hres ▸ hseg.grows hle, .inl rfl⟩

/-- **`inputN`** gives a vector, and goes over the end of the stream behind it if it finds one. -/
theorem inputN_settles (hs : s.Sound) {rest : List (Option α)} (h : Ahead s is rest) (k : ℕ) (n : ℤ) :
    Settles Shared.Sound (inputN a r k is n) s fun res s' => ∃ seg, Segment s' is res.2 seg ∧
      Vector res.1 seg := by
  unfold inputN
  split
  · exact .raise hs
  · refine (add_settles hs _ _).bind fun l s₁ hs₁ hle hl => ?_
    obtain ⟨ws, -, h₁⟩ := h.grows hle
    split
    · next hn =>
      rw [hl] at hn
      have hseg := h₁.segment_take (Nat.le_add_right is.pos n.toNat) hn
      rw [Nat.add_sub_cancel_left] at hseg
      exact .pure hs₁ ⟨_, hseg, .inl rfl⟩
    · obtain ⟨vs, hvs, -, -⟩ := id h₁
      refine (inputNLoop_settles k _ _ hs₁ hvs).mono fun res s' hs' hle' => ?_
      rintro ⟨u, seg, hres, hseg, hvec⟩
      refine ⟨_, (h₁.segment_rest.grows hle').trans hs' hseg, ?_⟩
      rw [hres, List.reverse_singleton, List.flatten_singleton]
      exact hvec.append

theorem input1'_settles : ∀ (k : ℕ) {s : Shared σ α} {is : Instream α} {rest : List (Option α)}, s.Sound →
    Ahead s is rest → Settles Shared.Sound (input1' r k is) s fun res s' =>
      (∀ c, res.1 = some c → Segment s' is res.2 [some c]) ∧ (res.1 = none → AtEnd s' is)
  | 0, _, _, _, hs, _ => .raise hs
  | k + 1, s, is, rest, hs, h => by
    unfold input1'
    split
    · next e he =>
      obtain ⟨hlt, rfl⟩ := List.getElem?_eq_some_iff.mp he
      have hseg := h.segment_take (Nat.le_succ is.pos) hlt
      rw [Nat.succ_sub (Nat.le_refl _), Nat.sub_self, List.drop_eq_getElem_cons hlt] at hseg
      exact .pure hs ⟨fun c hc => Option.some.inj hc ▸ hseg, nofun⟩
    · next hnone =>
      obtain ⟨buf₀, rfl⟩ := h.eq_end (List.getElem?_eq_none_iff.mp hnone)
      obtain ⟨vs, hvs, -, -⟩ := id h
      refine (doit_settles hs hvs "input1").bind fun st s₁ hs₁ _ hfound => ?_
      cases hfound with
      | @link buf _ hcell hne hbehind =>
        have hseg := (Found.link hcell hne hbehind).segment_link (Nat.zero_le _)
        refine (input1'_settles k hs₁ hbehind.ahead_beg).mono fun res s' hs' hle => ?_
        rintro ⟨hsome, hnone⟩
        exact ⟨fun c hc => (hseg.grows hle).trans hs' (hsome c hc),
          fun hc => (hnone hc).of_segment hs' (hseg.grows hle)⟩
      | eos hcell hnil hbehind =>
        exact .pure hs₁ ⟨nofun, fun _ => (Found.eos hcell hnil hbehind).segment_eos.2⟩
      | truncated htail hcell =>
        exact .pure hs₁ ⟨nofun, fun _ => ((Found.truncated htail hcell).atEnd (.inl rfl)).2⟩
      | closed htail hcell =>
        exact .pure hs₁ ⟨nofun, fun _ => ((Found.closed htail hcell).atEnd (.inr rfl)).2⟩

theorem inputAllLoop_settles : ∀ (k : ℕ) {s : Shared σ α} {is : Instream α} {rest : List (Option α)}
    (ac : List (List α)), s.Sound → Ahead s is rest →
    Settles Shared.Sound (inputAllLoop a r k is ac) s fun res s' => ∃ u seg,
      res.1 = ac.reverse.flatten ++ u ∧ Segment s' is res.2 seg ∧ Vector u seg
  | 0, _, _, _, _, hs, _ => .raise hs
  | k + 1, s, is, rest, ac, hs, h => by
    refine (input_settles hs h).bind fun res s₁ hs₁ _ => ?_
    rintro ⟨seg, hseg, hcase⟩
    obtain ⟨inp, is'⟩ := res
    simp only at hseg hcase ⊢
    obtain ⟨hne, rfl⟩ | ⟨rfl, -, hend⟩ := hcase
    · rw [if_neg fun hlen => hne (List.length_eq_zero_iff.mp hlen)]
      obtain ⟨rest', -, hrest'⟩ := id hseg
      refine (inputAllLoop_settles k _ hs₁ hrest').mono fun res s' hs' hle => ?_
      rintro ⟨u, seg', hres, hseg', hvec⟩
      refine ⟨inp ++ u, _, ?_, (hseg.grows hle).trans hs' hseg', hvec.append⟩
      rw [hres]
      simp
    · rw [if_pos List.length_nil]
      refine (concat_settles hs₁ _).bind fun v s' hs' hle hv => ?_
      refine .pure hs' ⟨[], seg, by rw [hv, List.append_nil], hseg.grows hle, ?_⟩
      exact hend.symm.imp id id

theorem inputAll_settles (hs : s.Sound) {rest : List (Option α)} (h : Ahead s is rest) (k : ℕ) :
    Settles Shared.Sound (inputAll a r k is) s fun res s' => ∃ seg, Segment s' is res.2 seg ∧
      Vector res.1 seg := by
  refine (inputAllLoop_settles k [] hs h).mono fun res s' _ _ => ?_
  rintro ⟨u, seg, hres, hseg, hvec⟩
  exact ⟨seg, hseg, by rwa [hres, List.reverse_nil, List.flatten_nil, List.nil_append]⟩

/-! ### Lines -/

theorem findLine_spec {isLine : α → Bool} {v : List α} {i j : ℕ} (h : findLine isLine v i = some j) :
    i ≤ j ∧ j ≤ v.length := by
  obtain ⟨n, hn, rfl⟩ := Option.map_eq_some_iff.mp h
  obtain ⟨hlt, -⟩ := List.findIdx?_eq_some_iff_getElem.mp hn
  rw [List.length_drop] at hlt
  omega

/-- What a read of a line goes over: the line, to which the end of a line has been added where the stream
ends. -/
def Line (s : Shared σ α) (is' : Instream α) (lineElem : α) (v : List α) (seg : List (Option α)) : Prop :=
  seg = v.map some ∨ ∃ u, v = u ++ [lineElem] ∧ seg = u.map some ∧ AtEnd s is'

theorem Line.append {lineElem : α} {u v : List α} {seg : List (Option α)} (h : Line s is' lineElem v seg) :
    Line s is' lineElem (u ++ v) (u.map some ++ seg) := by
  obtain rfl | ⟨w, rfl, rfl, hend⟩ := h
  · exact .inl List.map_append.symm
  · exact .inr ⟨u ++ w, (List.append_assoc ..).symm, List.map_append.symm, hend⟩

section Line

variable {isLine : α → Bool} {lineElem : α}

theorem finishLine_settles (hs : s.Sound) (inps : List (List α)) (is : Instream α) (trail : Bool) :
    Settles Shared.Sound (finishLine a lineElem inps is trail) s fun res _ =>
      res = some (inps.reverse.flatten ++ if trail = true then [lineElem] else [], is) := by
  refine (concat_settles hs _).bind fun _ _ hs' _ hv => .pure hs' ?_
  rw [hv]
  cases trail <;> simp

theorem inputLineLoop_settles : ∀ (k : ℕ) {s : Shared σ α} {buf : InBuf α} {vs : List (List α)}
    (inps : List (List α)), s.Sound → Behind s buf.next vs →
    Settles Shared.Sound (inputLineLoop a r isLine lineElem k buf inps) s fun res s' => ∃ u is' seg,
      res = some (inps.reverse.flatten ++ u, is') ∧ Segment s' (updateBufEnd buf) is' seg ∧
        Line s' is' lineElem u seg
  | 0, _, _, _, _, hs, _ => .raise hs
  | k + 1, s, buf, vs, inps, hs, hvs => by
    refine (doit_settles hs hvs "inputLine").bind fun st s₁ hs₁ _ hfound => ?_
    have hstop : Segment s₁ (updateBufEnd buf) (updateBufEnd buf) [] →
        AtEnd s₁ (updateBufEnd buf) → Settles Shared.Sound
          (finishLine a lineElem inps (updateBufEnd buf) true) s₁ fun res s' => ∃ u is' seg,
            res = some (inps.reverse.flatten ++ u, is') ∧ Segment s' (updateBufEnd buf) is' seg ∧
              Line s' is' lineElem u seg := by
      intro hseg hend
      refine (finishLine_settles hs₁ _ _ _).mono fun res s' _ hle hres => ?_
      exact ⟨[lineElem], _, [], hres, hseg.grows hle, .inr ⟨[], rfl, rfl, hend.grows hs₁ hle⟩⟩
    cases hfound with
    | @link buf' vs' hcell hne hbehind =>
      have hfound := Found.link hcell hne hbehind
      simp only
      split
      · next i hi =>
        refine (finishLine_settles hs₁ _ _ _).mono fun res s' _ hle hres => ?_
        refine ⟨buf'.inp.take i, _, _, ?_, (hfound.segment_link (findLine_spec hi).2).grows hle, .inl rfl⟩
        rw [hres]
        simp
      · refine (inputLineLoop_settles k _ hs₁ hbehind).mono fun res s' hs' hle => ?_
        rintro ⟨u, is', seg, hres, hseg, hline⟩
        have hfirst := (hfound.segment_link (Nat.le_refl _)).grows hle
        rw [List.take_length] at hfirst
        refine ⟨buf'.inp ++ u, is', _, ?_, hfirst.trans hs' hseg, hline.append⟩
        rw [hres]
        simp
    | eos hcell hnil hbehind =>
      obtain ⟨hseg, hend⟩ := (Found.eos hcell hnil hbehind).segment_eos
      obtain ⟨rest, hrest, -⟩ := hseg
      exact hstop hrest.stay hend
    | truncated htail hcell =>
      obtain ⟨hseg, hend⟩ := (Found.truncated htail hcell).atEnd (.inl rfl)
      exact hstop hseg hend
    | closed htail hcell =>
      obtain ⟨hseg, hend⟩ := (Found.closed htail hcell).atEnd (.inr rfl)
      exact hstop hseg hend

theorem inputLineFirst_settles : ∀ (k : ℕ) {s : Shared σ α} {is : Instream α} {rest : List (Option α)},
    s.Sound → Ahead s is rest →
    Settles Shared.Sound (inputLineFirst a r isLine lineElem k is) s fun res s' =>
      (res = none → AtEnd s' is) ∧ ∀ v is', res = some (v, is') →
        ∃ seg, Segment s' is is' seg ∧ Line s' is' lineElem v seg
  | 0, _, _, _, hs, _ => .raise hs
  | k + 1, s, is, rest, hs, h => by
    unfold inputLineFirst
    split
    · next i hi =>
      obtain ⟨hpos, hi⟩ := findLine_spec hi
      refine .pure hs ⟨nofun, fun v is' heq => ?_⟩
      obtain ⟨rfl, rfl⟩ := Prod.mk.inj (Option.some.inj heq)
      exact ⟨_, h.segment_take hpos hi, .inl rfl⟩
    · split
      · obtain ⟨vs, hvs, -, -⟩ := id h
        refine (inputLineLoop_settles k _ hs hvs).mono fun res s' hs' hle => ?_
        rintro ⟨u, is₁, seg, rfl, hseg, hline⟩
        refine ⟨nofun, fun v is' heq => ?_⟩
        obtain ⟨rfl, rfl⟩ := Prod.mk.inj (Option.some.inj heq)
        refine ⟨_, (h.segment_rest.grows hle).trans hs' hseg, ?_⟩
        rw [List.reverse_singleton, List.flatten_singleton]
        exact hline.append
      · next hpos =>
        obtain ⟨buf₀, rfl⟩ := h.eq_end (Nat.le_of_not_lt hpos)
        obtain ⟨vs, hvs, -, -⟩ := id h
        refine (doit_settles hs hvs "inputLine").bind fun st s₁ hs₁ _ hfound => ?_
        cases hfound with
        | @link buf _ hcell hne hbehind =>
          have hseg := (Found.link hcell hne hbehind).segment_link (Nat.zero_le _)
          refine (inputLineFirst_settles k hs₁ hbehind.ahead_beg).mono fun res s' hs' hle => ?_
          rintro ⟨hnone, hsome⟩
          refine ⟨fun hres => (hnone hres).of_segment hs' (hseg.grows hle), fun v is' heq => ?_⟩
          obtain ⟨seg, hseg', hline⟩ := hsome v is' heq
          exact ⟨_, (hseg.grows hle).trans hs' hseg', hline⟩
        | eos hcell hnil hbehind =>
          exact .pure hs₁ ⟨fun _ => (Found.eos hcell hnil hbehind).segment_eos.2, nofun⟩
        | truncated htail hcell =>
          exact .pure hs₁ ⟨fun _ => ((Found.truncated htail hcell).atEnd (.inl rfl)).2, nofun⟩
        | closed htail hcell =>
          exact .pure hs₁ ⟨fun _ => ((Found.closed htail hcell).atEnd (.inr rfl)).2, nofun⟩

end Line

/-! ### Operations -/

/-- **What an operation has read**, by its result and the stream it leaves. -/
def Reads (a : Arg α) (s : Shared σ α) (is : Instream α) : InRes α → Option (Instream α) → Prop
  | .vector v, some is' => ∃ seg, Passes s is is' seg ∧ Vector v seg
  | .elem (some c), some is' => Passes s is is' [some c]
  | .elem none, none => AtEnd s is
  | .line (some v), some is' => ∃ seg, Passes s is is' seg ∧
      (Vector v seg ∨ ∃ line ∈ a.line, Line s is' line.2 v seg)
  | .line none, none => AtEnd s is
  | .count _, none => True
  | .bool true, none => AtEnd s is
  | .bool false, none => ∃ c rest, Ahead s is (some c :: rest)
  | _, _ => False

/-- `canInput` is the only operation that is no read. -/
def InOp.Reading : InOp → Prop
  | .canInput _ => False
  | _ => True

theorem Reads.grows (hs : s.Sound) (hle : s ≤ s') {res : InRes α} {next : Option (Instream α)}
    (h : Reads a s is res next) : Reads a s' is res next := by
  match res, next, h with
  | .vector v, some is', ⟨seg, hseg, hvec⟩ => exact ⟨seg, hseg.grows hle, hvec⟩
  | .elem (some c), some is', hseg => exact Passes.grows hseg hle
  | .elem none, none, hend => exact AtEnd.grows hs hend hle
  | .line (some v), some is', ⟨seg, hseg, hcase⟩ =>
    refine ⟨seg, hseg.grows hle, hcase.imp_right fun ⟨line, hline, h⟩ => ⟨line, hline, ?_⟩⟩
    exact h.imp_right fun ⟨u, hv, hu, hend⟩ => ⟨u, hv, hu, hend.grows hs hle⟩
  | .line none, none, hend => exact AtEnd.grows hs hend hle
  | .count _, none, _ => trivial
  | .bool true, none, hend => exact AtEnd.grows hs hend hle
  | .bool false, none, ⟨c, rest, hrest⟩ =>
    obtain ⟨ws, -, hrest⟩ := Ahead.grows hrest hle
    exact ⟨c, rest ++ items ws, hrest⟩

/-- **A read settles.** -/
theorem InOp.run_settles (hs : s.Sound) {p : ℕ} (hp : At s is p) (k : ℕ) {op : InOp} (hop : op.Reading) :
    Settles Shared.Sound (op.run a r k is) s fun res s' => Reads a s' is res.1 res.2 := by
  have h := hp.2
  cases op with
  | input =>
    refine (input_settles hs h).bind fun res s₁ hs₁ hle => ?_
    rintro ⟨seg, hseg, hcase⟩
    refine .pure hs₁ ⟨seg, hseg.passes hs₁ (hp.grows hle), ?_⟩
    obtain ⟨-, rfl⟩ | ⟨hnil, -, hend⟩ := hcase
    · exact .inl rfl
    · exact hnil ▸ hend.symm.imp id id
  | inputN n =>
    exact (inputN_settles hs h k n).bind fun res s₁ hs₁ hle ⟨seg, hseg, hvec⟩ =>
      .pure hs₁ ⟨seg, hseg.passes hs₁ (hp.grows hle), hvec⟩
  | inputAll =>
    exact (inputAll_settles hs h k).bind fun res s₁ hs₁ hle ⟨seg, hseg, hvec⟩ =>
      .pure hs₁ ⟨seg, hseg.passes hs₁ (hp.grows hle), hvec⟩
  | input1 =>
    have hsettles : Settles Shared.Sound (Streams.input1 r k is) s fun res s' =>
        (∀ c is', res = some (c, is') → Segment s' is is' [some c]) ∧ (res = none → AtEnd s' is) := by
      refine (input1'_settles k hs h).bind fun res s₁ hs₁ _ => ?_
      rintro ⟨hsome, hnone⟩
      obtain ⟨c, is'⟩ := res
      cases c with
      | none => exact .pure hs₁ ⟨nofun, fun _ => hnone rfl⟩
      | some c =>
        refine .pure hs₁ ⟨fun c' is'' heq => ?_, nofun⟩
        obtain ⟨rfl, rfl⟩ := Prod.mk.inj (Option.some.inj heq)
        exact hsome c rfl
    refine hsettles.bind fun res s₁ hs₁ hle => ?_
    rintro ⟨hsome, hnone⟩
    cases res with
    | none => exact .pure hs₁ (hnone rfl)
    | some res => exact .pure hs₁ ((hsome res.1 res.2 rfl).passes hs₁ (hp.grows hle))
  | inputLine =>
    have hsettles : Settles Shared.Sound (Streams.inputLine a r k is) s fun res s' =>
        (res = none → AtEnd s' is) ∧ ∀ v is', res = some (v, is') → ∃ seg, Segment s' is is' seg ∧
          (Vector v seg ∨ ∃ line ∈ a.line, Line s' is' line.2 v seg) := by
      unfold Streams.inputLine
      split
      · refine (input_settles hs h).bind fun res s₁ hs₁ _ => ?_
        rintro ⟨seg, hseg, hcase⟩
        refine .pure hs₁ ⟨nofun, fun v is' heq => ?_⟩
        obtain rfl := Option.some.inj heq
        refine ⟨seg, hseg, .inl ?_⟩
        obtain ⟨-, rfl⟩ | ⟨rfl, -, hend⟩ := hcase
        · exact .inl rfl
        · exact hend.symm.imp id id
      · next isLine lineElem hline =>
        refine (inputLineFirst_settles k hs h).mono fun res s' _ _ => ?_
        rintro ⟨hnone, hsome⟩
        refine ⟨hnone, fun v is' heq => ?_⟩
        obtain ⟨seg, hseg, hl⟩ := hsome v is' heq
        exact ⟨seg, hseg, .inr ⟨_, hline, hl⟩⟩
    refine hsettles.bind fun res s₁ hs₁ hle => ?_
    rintro ⟨hnone, hsome⟩
    cases res with
    | none => exact .pure hs₁ (hnone rfl)
    | some res =>
      obtain ⟨seg, hseg, hl⟩ := hsome res.1 res.2 rfl
      exact .pure hs₁ ⟨seg, hseg.passes hs₁ (hp.grows hle), hl⟩
  | endOfStream =>
    have hsettles : Settles Shared.Sound (Streams.endOfStream r is) s fun b s' =>
        Reads a s' is (.bool b) none := by
      refine (input_settles hs h).bind fun res s₁ hs₁ _ => ?_
      rintro ⟨seg, hseg, hcase⟩
      obtain ⟨v, is'⟩ := res
      refine .pure hs₁ ?_
      cases v with
      | nil =>
        obtain ⟨hne, -⟩ | ⟨-, hend, -⟩ := hcase
        · exact absurd rfl hne
        · exact hend
      | cons c v =>
        obtain ⟨-, rfl⟩ | ⟨hnil, -⟩ := hcase
        · obtain ⟨rest, hahead, -⟩ := hseg
          exact ⟨c, _, hahead⟩
        · exact absurd hnil nofun
    exact hsettles.bind fun res s₁ hs₁ _ hres => .pure hs₁ hres
  | canInput => exact hop.elim

end MLton.Streams
