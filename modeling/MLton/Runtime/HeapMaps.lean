import MLton.Machinery.Binary64
import MLton.Machinery.SizeT
import MLton.Runtime.CardMap

/-!
# Runtime/HeapMaps — the size of a heap and that of its maps

The card map and the cross map lie behind the heap, and their size depends on that of the heap.  To find the
heap for a size with maps, `invertSizeofCardMapAndCrossMap` starts from an estimate in floating-point numbers
and goes up by pages.  It never goes down, so the estimate must not be too large; the page that it leaves as
a margin is more than what its four roundings can add (`fits_minHeapSize`).
-/

namespace MLton.Runtime

/-- `CARD_MAP_ELEM_SIZE`. -/
def cardMapElemSize : ℕ := 1

/-- `CROSS_MAP_ELEM_SIZE`. -/
def crossMapElemSize : ℕ := 1

/-- What of the machine and of the program sizes depend on: the width of `size_t`, the page size and
`mutatorMarksCards`.  A page has at least 4096 bytes. -/
structure Sys where
  mutatorMarksCards : Bool
  pageLog2 : ℕ
  width : ℕ
  page_le : 12 ≤ pageLog2
  page_fits : pageLog2 + 2 ≤ width
  width_le : width ≤ 64

namespace Sys

variable (S : Sys)

/-- `sysvals.pageSize`. -/
def pageSize : ℕ := 2 ^ S.pageLog2

/-- `sizeofCardMap`. -/
def sizeofCardMap (heapSize : ℕ) : ℕ :=
  if S.mutatorMarksCards then
    let cardMapLength := sizeToCardMapIndex heapSize
    SizeT.align S.width (SizeT.mul S.width cardMapLength cardMapElemSize) S.pageSize
  else 0

/-- `sizeofCrossMap`. -/
def sizeofCrossMap (heapSize : ℕ) : ℕ :=
  if S.mutatorMarksCards then
    let crossMapLength := sizeToCardMapIndex heapSize
    SizeT.align S.width (SizeT.mul S.width crossMapLength crossMapElemSize) S.pageSize
  else 0

/-- `sizeofCardMapAndCrossMap`. -/
def sizeofCardMapAndCrossMap (heapSize : ℕ) : ℕ :=
  SizeT.add S.width (S.sizeofCardMap heapSize) (S.sizeofCrossMap heapSize)

/-- `minHeapSizeD`, in floating-point numbers. -/
def minHeapSizeD (heapWithMapsSize : ℕ) : ℚ :=
  let elems := cardMapElemSize + crossMapElemSize
  let total := Binary64.ofNat (cardSize + elems)
  let rest := SizeT.sub S.width heapWithMapsSize (SizeT.mul S.width 3 S.pageSize)
  Binary64.sub
    (Binary64.mul (Binary64.div (Binary64.ofNat cardSize) total) (Binary64.ofNat rest))
    (Binary64.mul (Binary64.div (Binary64.ofNat elems) total) (Binary64.ofNat S.pageSize))

/-- `minHeapSize`, from where the search starts. -/
def minHeapSize (heapWithMapsSize : ℕ) : ℕ :=
  if heapWithMapsSize ≤ SizeT.mul S.width 3 S.pageSize then 0
  else SizeT.alignDown ⌊S.minHeapSizeD heapWithMapsSize⌋.toNat S.pageSize

/-- The loop of `invertSizeofCardMapAndCrossMap`. -/
def invertLoop (heapWithMapsSize : ℕ) : ℕ → ℕ → ℕ → Option ℕ
  | 0, _, _ => none
  | k + 1, heapSize, nextHeapSize =>
    if S.sizeofCardMapAndCrossMap nextHeapSize ≤ heapWithMapsSize ∧
        nextHeapSize ≤ SizeT.sub S.width heapWithMapsSize (S.sizeofCardMapAndCrossMap nextHeapSize) then
      invertLoop heapWithMapsSize k nextHeapSize (SizeT.add S.width nextHeapSize S.pageSize)
    else some heapSize

/-- `invertSizeofCardMapAndCrossMap`. -/
def invertSizeofCardMapAndCrossMap (k heapWithMapsSize : ℕ) : Option ℕ :=
  if S.mutatorMarksCards then
    let heapSize := S.minHeapSize heapWithMapsSize
    S.invertLoop heapWithMapsSize k heapSize (SizeT.add S.width heapSize S.pageSize)
  else some heapWithMapsSize

/-- **A heap of the size fits with its maps.** -/
def Fits (heapSize heapWithMapsSize : ℕ) : Prop :=
  heapSize + S.sizeofCardMapAndCrossMap heapSize ≤ heapWithMapsSize

/-- **The greatest size in whole pages that fits.** -/
structure Greatest (heapSize heapWithMapsSize : ℕ) : Prop where
  dvd : S.pageSize ∣ heapSize
  fits : S.Fits heapSize heapWithMapsSize
  greatest : ∀ h, S.pageSize ∣ h → S.Fits h heapWithMapsSize → h ≤ heapSize

/-! ## The size of the maps -/

variable {S} {h h' H : ℕ}

theorem pageSize_pos : 0 < S.pageSize := Nat.two_pow_pos _

theorem le_pageSize : 4096 ≤ S.pageSize := Nat.pow_le_pow_right (n := 2) (Nat.succ_pos 1) S.page_le

/-- Four pages fit into memory. -/
theorem pageSize_mul_le : 4 * S.pageSize ≤ 2 ^ S.width := by
  have := Nat.pow_le_pow_right (n := 2) (by norm_num) S.page_fits
  rw [pow_add] at this
  unfold pageSize
  omega

/-- The cards of a heap, and a page more, fit into memory twice. -/
theorem cards_lt (hh : h < 2 ^ S.width) : 2 * (sizeToCardMapIndex h + (S.pageSize - 1)) < 2 ^ S.width := by
  have hle := S.pageSize_mul_le
  have hpos := S.pageSize_pos
  rw [sizeToCardMapIndex, Nat.shiftRight_eq_div_pow, show 2 ^ cardSizeLog2 = 256 from rfl]
  omega

theorem align_cards (hh : h < 2 ^ S.width) :
    sizeToCardMapIndex h ≤ SizeT.align S.width (sizeToCardMapIndex h) S.pageSize ∧
      SizeT.align S.width (sizeToCardMapIndex h) S.pageSize ≤ sizeToCardMapIndex h + (S.pageSize - 1) := by
  have hlt := cards_lt hh
  have hspec := SizeT.align_spec (w := S.width) (a := sizeToCardMapIndex h) S.pageSize_pos (by omega)
  exact ⟨hspec.1, hspec.2.1⟩

/-- **Each map is a byte for every card**, in whole pages. -/
theorem maps_eq (hm : S.mutatorMarksCards) (hh : h < 2 ^ S.width) :
    S.sizeofCardMapAndCrossMap h = 2 * SizeT.align S.width (sizeToCardMapIndex h) S.pageSize := by
  have hlt := cards_lt hh
  have hmul : SizeT.mul S.width (sizeToCardMapIndex h) 1 = sizeToCardMapIndex h := by
    rw [SizeT.mul_eq (by omega), Nat.mul_one]
  have hle := (align_cards hh).2
  simp only [sizeofCardMapAndCrossMap, sizeofCardMap, sizeofCrossMap, if_pos hm, cardMapElemSize,
    crossMapElemSize, hmul]
  rw [SizeT.add_eq (by omega), Nat.two_mul]

theorem maps_eq_zero (hm : ¬ S.mutatorMarksCards) (h : ℕ) : S.sizeofCardMapAndCrossMap h = 0 := by
  rw [sizeofCardMapAndCrossMap, sizeofCardMap, sizeofCrossMap, if_neg hm, if_neg hm, SizeT.add, Nat.zero_mod]

theorem maps_le (hh : h < 2 ^ S.width) :
    S.sizeofCardMapAndCrossMap h ≤ 2 * (h / cardSize + (S.pageSize - 1)) := by
  by_cases hm : S.mutatorMarksCards
  · have hle := (align_cards hh).2
    rw [maps_eq hm hh]
    rw [sizeToCardMapIndex, Nat.shiftRight_eq_div_pow] at hle ⊢
    exact Nat.mul_le_mul_left 2 hle
  · exact maps_eq_zero hm h ▸ Nat.zero_le _

/-- **Larger heaps have larger maps.** -/
theorem maps_mono (hle : h ≤ h') (hh : h' < 2 ^ S.width) :
    S.sizeofCardMapAndCrossMap h ≤ S.sizeofCardMapAndCrossMap h' := by
  by_cases hm : S.mutatorMarksCards
  · rw [maps_eq hm (by omega), maps_eq hm hh]
    have hlt := cards_lt hh
    refine Nat.mul_le_mul_left 2 (SizeT.align_mono S.pageSize_pos (by omega) ?_)
    rw [sizeToCardMapIndex, sizeToCardMapIndex, Nat.shiftRight_eq_div_pow, Nat.shiftRight_eq_div_pow]
    exact Nat.div_le_div_right hle
  · rw [maps_eq_zero hm, maps_eq_zero hm]

/-- The maps of a heap that is not empty take two pages. -/
theorem two_pages_le_maps (hm : S.mutatorMarksCards) (hpos : cardSize ≤ h) (hh : h < 2 ^ S.width) :
    2 * S.pageSize ≤ S.sizeofCardMapAndCrossMap h := by
  have hle := (align_cards hh).1
  have hcard : 0 < sizeToCardMapIndex h := by
    rw [sizeToCardMapIndex, Nat.shiftRight_eq_div_pow]
    exact Nat.div_pos hpos (by norm_num [cardSizeLog2])
  rw [maps_eq hm hh]
  exact Nat.mul_le_mul_left 2 (Nat.le_of_dvd (by omega) SizeT.dvd_align)

theorem cardSize_dvd_pageSize : cardSize ∣ S.pageSize :=
  Nat.pow_dvd_pow 2 (le_trans (by norm_num [cardSizeLog2]) S.page_le)

/-! ## The search -/

theorem Fits.lt (hf : S.Fits h H) (hH : H < 2 ^ S.width) : h < 2 ^ S.width := by
  unfold Fits at hf
  omega

/-- **What fits is at least as large as what is smaller.** -/
theorem Fits.mono (hf : S.Fits h' H) (hH : H < 2 ^ S.width) (hle : h ≤ h') : S.Fits h H := by
  have := maps_mono hle (hf.lt hH)
  unfold Fits at hf ⊢
  omega

theorem fits_zero (H : ℕ) : S.Fits 0 H := by
  by_cases hm : S.mutatorMarksCards
  · have halign : SizeT.align S.width 0 S.pageSize = 0 := by
      refine SizeT.align_of_dvd S.pageSize_pos ?_ (Nat.dvd_zero _)
      have := S.pageSize_mul_le
      have := S.pageSize_pos
      omega
    rw [Fits, maps_eq hm (Nat.two_pow_pos _), show sizeToCardMapIndex 0 = 0 from rfl, halign]
    exact Nat.zero_le _
  · rw [Fits, maps_eq_zero hm]
    exact Nat.zero_le _

/-- The next size does not wrap around, and the test is whether it fits. -/
theorem next_spec (hm : S.mutatorMarksCards) (hH : H < 2 ^ S.width) (hf : S.Fits h H) (hdvd : S.pageSize ∣ h) :
    SizeT.add S.width h S.pageSize = h + S.pageSize ∧
      ((S.sizeofCardMapAndCrossMap (h + S.pageSize) ≤ H ∧
        h + S.pageSize ≤ SizeT.sub S.width H (S.sizeofCardMapAndCrossMap (h + S.pageSize))) ↔
        S.Fits (h + S.pageSize) H) := by
  have hlt : h + S.pageSize < 2 ^ S.width := by
    have h4 := S.pageSize_mul_le
    have hpos := S.pageSize_pos
    obtain rfl | hne := Nat.eq_zero_or_pos h
    · omega
    · have hle : cardSize ≤ h := Nat.le_of_dvd hne (dvd_trans cardSize_dvd_pageSize hdvd)
      have := two_pages_le_maps hm hle (hf.lt hH)
      unfold Fits at hf
      omega
  refine ⟨SizeT.add_eq hlt, ?_⟩
  unfold Fits
  constructor
  · rintro ⟨hle, hnext⟩
    rw [SizeT.sub_eq hle hH] at hnext
    omega
  · intro hle
    rw [SizeT.sub_eq (by omega) hH]
    omega

theorem Greatest.unique {r r' : ℕ} (hr : S.Greatest r H) (hr' : S.Greatest r' H) : r = r' :=
  le_antisymm (hr'.greatest r hr.dvd hr.fits) (hr.greatest r' hr'.dvd hr'.fits)

/-- A size is the greatest one when the next one does not fit. -/
theorem Greatest.of_next {r : ℕ} (hH : H < 2 ^ S.width) (hdvd : S.pageSize ∣ r) (hf : S.Fits r H)
    (hnext : ¬ S.Fits (r + S.pageSize) H) : S.Greatest r H where
  dvd := hdvd
  fits := hf
  greatest h hh hfit := by
    by_contra hgt
    have hle := Nat.le_of_dvd (by omega) (Nat.dvd_sub hh hdvd)
    exact hnext (hfit.mono hH (by omega))

/-- **The loop ends at the greatest size that fits**, from any size that does; by induction on the pages that
are left. -/
theorem invertLoop_spec (hm : S.mutatorMarksCards) (hH : H < 2 ^ S.width) : ∀ (k h : ℕ), S.Fits h H →
    S.pageSize ∣ h → H < h + k * S.pageSize →
    ∃ r, S.invertLoop H k h (SizeT.add S.width h S.pageSize) = some r ∧ S.Greatest r H
  | 0, h, hf, _, hk => by
    unfold Fits at hf
    omega
  | k + 1, h, hf, hdvd, hk => by
    obtain ⟨hnext, htest⟩ := next_spec hm hH hf hdvd
    rw [invertLoop, hnext]
    by_cases hf' : S.Fits (h + S.pageSize) H
    · rw [if_pos (htest.mpr hf')]
      exact invertLoop_spec hm hH k (h + S.pageSize) hf' (Nat.dvd_add_self_right.mpr hdvd)
        (by rwa [Nat.add_assoc, Nat.add_comm S.pageSize, ← Nat.succ_mul])
    · rw [if_neg (mt htest.mp hf')]
      exact ⟨h, rfl, .of_next hH hdvd hf hf'⟩

/-! ## The estimate -/

/-- **Four roundings add less than a page**: the conversion of the size, the quotient, the product and the
difference are each off by at most 1024, where a page is left as a margin. -/
theorem estimate_bounds {n p : ℕ} (hp : 4096 ≤ p) (hn : p ≤ n) (hlt : n + 3 * p < 2 ^ 64) :
    let d := Binary64.sub (Binary64.mul (Binary64.div 256 258) (Binary64.ofNat n))
      (Binary64.mul (Binary64.div 2 258) (Binary64.ofNat p))
    0 ≤ d ∧ 258 * d ≤ 256 * (n + p) + 1 := by
  have hp : (4096 : ℚ) ≤ p := by exact_mod_cast hp
  have hn : (p : ℚ) ≤ n := by exact_mod_cast hn
  have hlt : (n : ℚ) + 3 * p < 2 ^ 64 := by exact_mod_cast hlt
  have hn0 : (0 : ℚ) ≤ n := by linarith
  -- the conversions and the quotients
  have ha : |Binary64.ofNat n - n| ≤ 2 ^ 10 := Binary64.abs_round_sub_le_pow 10 hn0 (by linarith)
  have ha' : |Binary64.ofNat n - n| ≤ n / 2 ^ 53 := Binary64.abs_round_sub_le_div hn0
  have hb : |Binary64.ofNat p - p| ≤ p / 2 ^ 53 := Binary64.abs_round_sub_le_div (by linarith)
  have hc : |Binary64.div 256 258 - 256 / 258| ≤ 1 / 2 ^ 54 :=
    (Binary64.abs_round_sub_le (e := 0) (by rw [abs_of_pos] <;> norm_num)).trans (by norm_num)
  have hc' : |Binary64.div 2 258 - 2 / 258| ≤ 2 / 258 / 2 ^ 53 :=
    Binary64.abs_round_sub_le_div (by norm_num)
  rw [abs_le] at ha ha' hb hc hc'
  dsimp only
  generalize Binary64.ofNat n = a at ha ha' ⊢
  generalize Binary64.ofNat p = b at hb ⊢
  generalize Binary64.div 256 258 = c at hc ⊢
  generalize Binary64.div 2 258 = c' at hc' ⊢
  -- the products
  have hca : c * a ≤ (256 / 258 + 1 / 2 ^ 54) * a := mul_le_mul_of_nonneg_right (by linarith [hc.2]) (by linarith)
  have hca' : 1 / 2 * a ≤ c * a := mul_le_mul_of_nonneg_right (by linarith [hc.1]) (by linarith)
  have hcb : c' * b ≤ 1 / 64 * b := mul_le_mul_of_nonneg_right (by linarith [hc'.2]) (by linarith)
  have hcb' : (2 / 258 - 2 / 258 / 2 ^ 53) * b ≤ c' * b :=
    mul_le_mul_of_nonneg_right (by linarith [hc'.1]) (by linarith)
  have hm : |Binary64.mul c a - c * a| ≤ 2 ^ 10 :=
    Binary64.abs_round_sub_le_pow 10 (by linarith) (by linarith)
  have hm' : |Binary64.mul c a - c * a| ≤ c * a / 2 ^ 53 := Binary64.abs_round_sub_le_div (by linarith)
  have hq : |Binary64.mul c' b - c' * b| ≤ c' * b / 2 ^ 53 := Binary64.abs_round_sub_le_div (by linarith)
  rw [abs_le] at hm hm' hq
  generalize Binary64.mul c a = m at hm hm' ⊢
  generalize Binary64.mul c' b = q at hq ⊢
  -- the difference
  have hmq : 0 ≤ m - q := by linarith
  have hd := abs_le.mp (Binary64.abs_round_sub_le_pow 10 hmq (by linarith))
  refine ⟨Binary64.round_nonneg hmq, ?_⟩
  have : Binary64.sub m q ≤ m - q + 2 ^ 10 := by
    rw [Binary64.sub]
    linarith [hd.2]
  linarith

/-- The estimate, with the constants and the sizes that it is of. -/
theorem minHeapSizeD_eq (hH : H < 2 ^ S.width) (hlt : 3 * S.pageSize < H) : S.minHeapSizeD H =
    Binary64.sub (Binary64.mul (Binary64.div 256 258) (Binary64.ofNat (H - 3 * S.pageSize)))
      (Binary64.mul (Binary64.div 2 258) (Binary64.ofNat S.pageSize)) := by
  have h3 : SizeT.mul S.width 3 S.pageSize = 3 * S.pageSize := SizeT.mul_eq (by omega)
  rw [minHeapSizeD, h3, SizeT.sub_eq hlt.le hH]
  simp only [cardMapElemSize, crossMapElemSize, show cardSize = 256 from rfl, Nat.reduceAdd]
  rw [Binary64.ofNat_eq (n := 256) (by norm_num), Binary64.ofNat_eq (n := 258) (by norm_num),
    Binary64.ofNat_eq (n := 2) (by norm_num)]
  norm_cast

/-- **The estimate is not negative**, so that it can be converted to a size. -/
theorem minHeapSizeD_nonneg (hH : H < 2 ^ S.width) (hdvd : S.pageSize ∣ H) (hlt : 3 * S.pageSize < H) :
    0 ≤ S.minHeapSizeD H ∧ 258 * S.minHeapSizeD H ≤ 256 * ((H - 3 * S.pageSize : ℕ) + S.pageSize) + 1 := by
  have hpage : S.pageSize ≤ H - 3 * S.pageSize :=
    Nat.le_of_dvd (by omega) (Nat.dvd_sub hdvd (Nat.dvd_mul_left ..))
  have hpow : 2 ^ S.width ≤ 2 ^ 64 := Nat.pow_le_pow_right (n := 2) (Nat.succ_pos 1) S.width_le
  rw [minHeapSizeD_eq hH hlt]
  exact estimate_bounds S.le_pageSize hpage (by omega)

/-- **A heap of the estimated size fits.** -/
theorem fits_minHeapSize (hH : H < 2 ^ S.width) (hdvd : S.pageSize ∣ H) :
    S.pageSize ∣ S.minHeapSize H ∧ S.Fits (S.minHeapSize H) H := by
  have h3 : SizeT.mul S.width 3 S.pageSize = 3 * S.pageSize :=
    SizeT.mul_eq (by have := S.pageSize_mul_le; have := S.pageSize_pos; omega)
  rw [minHeapSize, h3]
  split
  case isTrue => exact ⟨Nat.dvd_zero _, fits_zero H⟩
  case isFalse hlt =>
    have hlt : 3 * S.pageSize < H := not_le.mp hlt
    obtain ⟨hnonneg, hle⟩ := minHeapSizeD_nonneg hH hdvd hlt
    refine ⟨SizeT.dvd_alignDown, ?_⟩
    obtain ⟨j, hj⟩ : cardSize ∣ SizeT.alignDown ⌊S.minHeapSizeD H⌋.toNat S.pageSize :=
      dvd_trans cardSize_dvd_pageSize SizeT.dvd_alignDown
    rw [show cardSize = 256 from rfl] at hj
    -- the size is not above the estimate
    have hfloor : ((256 * j : ℕ) : ℚ) ≤ S.minHeapSizeD H := by
      have h := hj ▸ SizeT.alignDown_le (a := ⌊S.minHeapSizeD H⌋.toNat) (b := S.pageSize)
      have h' : ((256 * j : ℕ) : ℤ) ≤ ⌊S.minHeapSizeD H⌋ := by
        rw [← Int.toNat_of_nonneg (Int.floor_nonneg.mpr hnonneg)]
        exact_mod_cast h
      exact_mod_cast Int.le_floor.mp h'
    have hcards : 258 * j ≤ H - 3 * S.pageSize + S.pageSize := by
      have hq : 256 * (258 * j : ℚ) ≤ 256 * ((H - 3 * S.pageSize : ℕ) + S.pageSize) + 1 := by
        push_cast at hfloor ⊢
        linarith
      have hn : 256 * (258 * j) ≤ 256 * (H - 3 * S.pageSize + S.pageSize) + 1 := by exact_mod_cast hq
      omega
    have hpos := S.pageSize_pos
    have hmaps := maps_le (S := S) (h := 256 * j) (by omega)
    rw [show cardSize = 256 from rfl, Nat.mul_div_cancel_left j (by norm_num)] at hmaps
    rw [hj, Fits]
    omega

/-- **What `invertSizeofCardMapAndCrossMap` is for.**  The estimate can be converted; from any size that fits
the loop ends; and the result is the greatest size in whole pages that fits with its maps. -/
theorem invertSizeofCardMapAndCrossMap_spec (S : Sys) (heapWithMapsSize : ℕ)
    (hlt : heapWithMapsSize < 2 ^ S.width) (hdvd : S.pageSize ∣ heapWithMapsSize) :
    (3 * S.pageSize < heapWithMapsSize → 0 ≤ S.minHeapSizeD heapWithMapsSize) ∧
    (S.mutatorMarksCards → ∀ h, S.pageSize ∣ h → S.Fits h heapWithMapsSize → ∃ n, ∀ k ≥ n,
      ∃ r, S.invertLoop heapWithMapsSize k h (SizeT.add S.width h S.pageSize) = some r) ∧
    ∃ heapSize, S.Greatest heapSize heapWithMapsSize ∧
      ∃ n, ∀ k ≥ n, S.invertSizeofCardMapAndCrossMap k heapWithMapsSize = some heapSize := by
  have hfuel : ∀ k ≥ heapWithMapsSize + 1, ∀ h, heapWithMapsSize < h + k * S.pageSize := by
    intro k hk h
    have := Nat.le_mul_of_pos_right k S.pageSize_pos
    omega
  refine ⟨fun h3 => (minHeapSizeD_nonneg hlt hdvd h3).1, fun hm h hh hf => ⟨heapWithMapsSize + 1, fun k hk => ?_⟩, ?_⟩
  · obtain ⟨r, hr, -⟩ := invertLoop_spec hm hlt k h hf hh (hfuel k hk h)
    exact ⟨r, hr⟩
  · by_cases hm : S.mutatorMarksCards
    · obtain ⟨hpage, hf⟩ := fits_minHeapSize hlt hdvd
      obtain ⟨r, -, hr⟩ := invertLoop_spec hm hlt (heapWithMapsSize + 1) _ hf hpage (hfuel _ le_rfl _)
      refine ⟨r, hr, heapWithMapsSize + 1, fun k hk => ?_⟩
      obtain ⟨r', hloop, hr'⟩ := invertLoop_spec hm hlt k _ hf hpage (hfuel k hk _)
      rw [invertSizeofCardMapAndCrossMap, if_pos hm, hr.unique hr', hloop]
    · refine ⟨heapWithMapsSize, ⟨hdvd, ?_, fun h _ hfit => ?_⟩, 0, fun k _ => ?_⟩
      · rw [Fits, maps_eq_zero hm, Nat.add_zero]
      · exact le_trans (Nat.le_add_right _ _) hfit
      · rw [invertSizeofCardMapAndCrossMap, if_neg hm]

/-- A machine with 64-bit sizes and pages of 4096 bytes. -/
def sys64 : Sys := ⟨true, 12, 64, by norm_num, by norm_num, by norm_num⟩

theorem invertSizeofCardMapAndCrossMap_spec_pages : ∃ heapSize, sys64.Greatest heapSize (16 * sys64.pageSize) ∧
    ∃ n, ∀ k ≥ n, sys64.invertSizeofCardMapAndCrossMap k (16 * sys64.pageSize) = some heapSize :=
  (invertSizeofCardMapAndCrossMap_spec sys64 (16 * sys64.pageSize) (by decide) (Nat.dvd_mul_left ..)).2.2

end Sys

end MLton.Runtime
