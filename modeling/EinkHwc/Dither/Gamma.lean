import EinkHwc.Dither.Packers
import EinkHwc.Dither.Shares
import EinkHwc.Trace.Cached

/-!
# The gamma table

`gray256_to_gray16` packs a picture through the table `gama`, which `init_gamma_table` fills when
the property `sys.gray.gammalevel` has changed. A level sets how many of the 256 values are black
and how many are white; the values between are dealt out to the fourteen greys.

* `grey`, `greyStart`: the table of a level, and where each grey begins in it. `gama_shares` says
  that `init_gamma_table` fills in this table, and for which level it divides by zero.
* `GammaCall`, `gammaCalls`: any sequence of calls.
* `gray16_gamma`: the table in force is that of the last level in range, once there is one above 0.
-/

namespace EinkHwc

open Mem

namespace Dither

/-! ## `init_gamma_table` -/

def maxGammaLevel : Int := 80
def defaultGrayWhiteCount : Int := 16
def defaultGrayBlackCount : Int := 16

/-- The statics. -/
structure Gamma where
  gama : Nat → Int := fun _ => 0
  lastGammaLevel : Int := 0

/-- `a / b` of two `int`s: a division by zero is undefined. -/
def quotient (a b : Int) : Option Int := if b = 0 then none else some (a.tdiv b)

/-- `a % b` -/
def modulus (a b : Int) : Option Int := if b = 0 then none else some (a.tmod b)

/-- What the loop of `init_gamma_table` changes. -/
structure Fill where
  gama : Nat → Int
  remainder : Int

/-- The constants of the loop. -/
structure Levels where
  mBlackCount : Int
  mChangeMultiple : Int
  whiteIndex : Int
  tempremainder : Int
  deriving DecidableEq, Repr

/-- The body of the loop. -/
def Fill.entry (c : Levels) (i : Nat) (s : Fill) : Option Fill :=
  if (i : Int) < c.mBlackCount then some { s with gama := put s.gama (i, 0) }
  else if (i : Int) > c.whiteIndex then some { s with gama := put s.gama (i, 15) }
  else if s.remainder > 0 then do
    let gray ← quotient (i - c.mBlackCount + c.mChangeMultiple + 1) (c.mChangeMultiple + 1)
    let rest ← modulus (i - c.mBlackCount + c.mChangeMultiple + 1) (c.mChangeMultiple + 1)
    some { gama := put s.gama (i, gray)
           remainder := if rest * 2 = 0 then s.remainder - 1 else s.remainder }
  else do
    let gray ← quotient (i - c.mBlackCount - c.tempremainder + c.mChangeMultiple) c.mChangeMultiple
    some { s with gama := put s.gama (i, gray) }

/-- The constants for a level in range. -/
def levels (gammaLevel : Int) : Levels :=
  let mWhiteCount :=
    if gammaLevel < maxGammaLevel then defaultGrayWhiteCount + gammaLevel.tdiv 2 else 100
  let mBlackCount :=
    if gammaLevel < maxGammaLevel then defaultGrayBlackCount + gammaLevel * 2 else 156
  { mBlackCount := mBlackCount
    mChangeMultiple := (256 - mBlackCount - mWhiteCount).tdiv 14
    whiteIndex := 256 - mWhiteCount
    tempremainder := (256 - mBlackCount - mWhiteCount).tmod 14 }

/-- `init_gamma_table`: `none` is a division by zero. -/
def initGammaTable (gammaLevel : Int) (s : Gamma) : Option Gamma :=
  if gammaLevel < 0 ∨ gammaLevel > maxGammaLevel then some s
  else do
    let c := levels gammaLevel
    let f ← Nat.fold 256 (fun i _ f => f.bind (Fill.entry c i)) (some ⟨s.gama, c.tempremainder⟩)
    some { gama := f.gama, lastGammaLevel := gammaLevel }

/-! ## The table of a level -/

def blackCount (level : Nat) : Nat := 16 + level * 2

def whiteCount (level : Nat) : Nat := 16 + level / 2

/-- The values between black and white. -/
def between (level : Nat) : Nat := 256 - blackCount level - whiteCount level

/-- The level of grey of a value. -/
def grey (level i : Nat) : Nat :=
  if i < blackCount level then 0
  else if i < 256 - whiteCount level then
    Shares.share (between level / 14) (between level % 14) (i - blackCount level) + 1
  else 15

/-- How many values have a grey: the first greys have one more. -/
def greyCount (level : Nat) : Nat → Nat
  | 0 => blackCount level
  | g + 1 => if g < 14 then between level / 14 + if g < between level % 14 then 1 else 0
      else whiteCount level

/-- The first value of a grey. -/
def greyStart (level : Nat) : Nat → Nat
  | 0 => 0
  | g + 1 => greyStart level g + greyCount level g

theorem quotient_natCast (a : Nat) {b : Nat} (hb : 0 < b) :
    quotient (a : Int) b = some ((a / b : Nat) : Int) := by
  unfold quotient
  rw [if_neg (by omega), Int.ofNat_tdiv]

theorem modulus_natCast (a : Nat) {b : Nat} (hb : 0 < b) :
    modulus (a : Int) b = some ((a % b : Nat) : Int) := by
  unfold modulus
  rw [if_neg (by omega), Int.ofNat_tmod]

/-- An entry that is dealt out. -/
theorem entry_dealt {b q r n x : Nat} {s : Fill} (hq : 0 < q) (hx : x ≤ n)
    (hs : s.remainder = (Shares.left q r x : Nat)) :
    s.entry ⟨b, q, (b + n : Nat), r⟩ (b + x) = some
      ⟨put s.gama (b + x, (Shares.share q r x + 1 : Nat)), (Shares.left q r (x + 1) : Nat)⟩ := by
  unfold Fill.entry
  rw [if_neg (by push_cast; omega), if_neg (by push_cast; omega), hs]
  by_cases hleft : 0 < Shares.left q r x
  · -- A longer share, counted at its first item.
    have hnum : ((b + x : Nat) : Int) - b + q + 1 = (x + (q + 1) : Nat) := by
      push_cast
      omega
    have hden : (q : Int) + 1 = (q + 1 : Nat) := by push_cast; rfl
    rw [if_pos (by omega), hnum, hden, quotient_natCast _ (Nat.succ_pos q),
      modulus_natCast _ (Nat.succ_pos q), Nat.add_div_right x (Nat.succ_pos q), Nat.add_mod_right,
      Shares.share_of_left hleft, Shares.left_succ]
    have hrest : (((x % (q + 1) : Nat) : Int) * 2 = 0) ↔ x % (q + 1) = 0 := by omega
    simp only [Option.bind_eq_bind, Option.bind_some, hrest]
    by_cases hfirst : x % (q + 1) = 0
    · rw [if_pos hfirst, if_pos hfirst, Int.natCast_pred_of_pos hleft]
    · rw [if_neg hfirst, if_neg hfirst]
  · have hnone : Shares.left q r x = 0 := by omega
    obtain ⟨hr, hshare⟩ := Shares.share_of_none_left hq hnone
    have hnum : ((b + x : Nat) : Int) - b - r + q = (x - r + q : Nat) := by omega
    have hnext : Shares.left q r (x + 1) = 0 := by
      rw [Shares.left_succ, hnone]
      split <;> rfl
    rw [if_neg (by omega), hnum, quotient_natCast _ hq, Nat.add_div_right (x - r) hq, hshare,
      hnext, hnone]
    rfl

section Level
variable {level i : Nat} (h : level < 80)
include h

theorem between_eq : between level + level / 2 + level * 2 = 224 := by
  unfold between blackCount whiteCount
  omega

theorem levels_eq : levels level = ⟨blackCount level, (between level / 14 : Nat),
    (blackCount level + between level : Nat), (between level % 14 : Nat)⟩ := by
  have hb := between_eq h
  have hlt : (level : Int) < maxGammaLevel := Int.ofNat_lt.2 h
  have hhalf : (level : Int).tdiv 2 = (level / 2 : Nat) := (Int.ofNat_tdiv level 2).symm
  have hsum : (256 : Int) - (16 + level * 2) - (16 + (level / 2 : Nat)) =
      (between level : Nat) := by
    omega
  unfold levels defaultGrayBlackCount defaultGrayWhiteCount
  rw [if_pos hlt, if_pos hlt]
  simp only [hhalf, hsum]
  rw [Levels.mk.injEq]
  refine ⟨?_, (Int.ofNat_tdiv _ 14).symm, ?_, (Int.ofNat_tmod _ 14).symm⟩
  · unfold blackCount
    push_cast
    omega
  · unfold blackCount
    push_cast
    omega

theorem sixth_pos : 0 < between level / 14 := by
  have hb := between_eq h
  omega

/-- The share of white is the last one dealt. -/
theorem grey_dealt {x : Nat} (hx : x ≤ between level) : grey level (blackCount level + x) =
    Shares.share (between level / 14) (between level % 14) x + 1 := by
  have hb := between_eq h
  have hq := sixth_pos h
  have hwhite : 256 - whiteCount level = blackCount level + between level := by
    unfold blackCount whiteCount
    omega
  unfold grey
  rw [if_neg (by omega), hwhite, Nat.add_sub_cancel_left]
  by_cases hlt : x < between level
  · rw [if_pos (by omega)]
  · obtain rfl : x = between level := by omega
    have hall : Shares.start (between level / 14) (between level % 14) 14 = between level := by
      rw [Shares.start_all (by omega)]
      omega
    have hlast : Shares.share (between level / 14) (between level % 14) (between level) = 14 := by
      refine (Shares.share_eq_iff hq).2 ⟨hall.le, ?_⟩
      rw [Shares.start_succ, hall, if_neg (by omega)]
      omega
    rw [if_neg (by omega), hlast]

/-- The table before entry `i`, and the longer shares that are left. -/
structure Fill.Upto (level i : Nat) (f : Fill) : Prop where
  gama : ∀ j < i, f.gama j = (grey level j : Nat)
  remainder : i ≤ blackCount level + between level + 1 → f.remainder =
    (Shares.left (between level / 14) (between level % 14) (i - blackCount level) : Nat)

omit h in
theorem upto_put {f : Fill} (hf : f.Upto level i) {v : Int} (hv : v = (grey level i : Nat)) :
    ∀ j < i + 1, put f.gama (i, v) j = (grey level j : Nat) := by
  intro j hj
  show Function.update f.gama i v j = _
  rw [Function.update_apply]
  by_cases hij : j = i
  · rw [if_pos hij, hij, hv]
  · rw [if_neg hij]
    exact hf.gama j (by omega)

theorem entry_upto {f : Fill} (hf : f.Upto level i) :
    ∃ f', f.entry (levels level) i = some f' ∧ f'.Upto level (i + 1) := by
  have hb := between_eq h
  rw [levels_eq h]
  by_cases hblack : i < blackCount level
  · have hgrey : grey level i = 0 := if_pos hblack
    refine ⟨_, if_pos (Int.ofNat_lt.2 hblack), upto_put hf (by rw [hgrey]; rfl), fun _ => ?_⟩
    have hstart : i + 1 - blackCount level = i - blackCount level := by omega
    rw [hstart]
    exact hf.remainder (by omega)
  by_cases hwhite : blackCount level + between level < i
  · have hgrey : grey level i = 15 := by
      unfold grey
      rw [if_neg hblack, if_neg]
      unfold blackCount whiteCount at *
      omega
    refine ⟨{ f with gama := put f.gama (i, 15) }, ?_, upto_put hf (by rw [hgrey]; rfl),
      fun hi => by omega⟩
    unfold Fill.entry
    rw [if_neg (by simpa using hblack), if_pos (Int.ofNat_lt.2 hwhite)]
  · obtain ⟨x, rfl⟩ := Nat.exists_eq_add_of_le (Nat.le_of_not_lt hblack)
    have hx : x ≤ between level := by omega
    have hleft := hf.remainder (by omega)
    rw [Nat.add_sub_cancel_left] at hleft
    refine ⟨_, entry_dealt (sixth_pos h) hx hleft, upto_put hf (by rw [grey_dealt h hx]),
      fun _ => ?_⟩
    rw [Nat.add_assoc, Nat.add_sub_cancel_left]

theorem initGammaTable_eq (s : Gamma) : ∃ gama, initGammaTable level s = some ⟨gama, level⟩ ∧
    ∀ i < 256, gama i = (grey level i : Nat) := by
  have hrange : ¬ ((level : Int) < 0 ∨ (level : Int) > maxGammaLevel) := by
    unfold maxGammaLevel
    omega
  obtain ⟨f, hf, hupto⟩ := fold_rule (n := 256)
    (f := fun i f => f.bind (Fill.entry (levels level) i))
    (s := some ⟨s.gama, (levels level).tempremainder⟩)
    (I := fun i o => ∃ f, o = some f ∧ Fill.Upto level i f)
    ⟨_, rfl, fun j hj => absurd hj (Nat.not_lt_zero j), fun _ => by
      rw [levels_eq h, Nat.zero_sub, Shares.left_zero]⟩
    fun i o _ hI => by
      obtain ⟨f, rfl, hf⟩ := hI
      exact entry_upto h hf
  refine ⟨f.gama, ?_, hupto.gama⟩
  unfold initGammaTable
  rw [if_neg hrange]
  simp only [hf, Option.bind_eq_bind, Option.bind_some]

omit h in
theorem greyStart_succ {g : Nat} (hg : g ≤ 14) : greyStart level (g + 1) =
    blackCount level + Shares.start (between level / 14) (between level % 14) g := by
  induction g with
  | zero =>
    rw [Shares.start_zero]
    exact Nat.zero_add _
  | succ g ih =>
    have hcount : greyCount level (g + 1) =
        between level / 14 + if g < between level % 14 then 1 else 0 := if_pos (by omega)
    show greyStart level (g + 1) + greyCount level (g + 1) = _
    rw [ih (by omega), Shares.start_succ, hcount]
    split <;> omega

omit h in
theorem start_between (level : Nat) :
    Shares.start (between level / 14) (between level % 14) 14 = between level := by
  rw [Shares.start_all (by omega)]
  omega

theorem greyStart_last : greyStart level 16 = 256 := by
  have hb := between_eq h
  show greyStart level 15 + whiteCount level = 256
  rw [greyStart_succ (Nat.le_refl 14), start_between]
  unfold blackCount whiteCount
  omega

/-- Black, the greys between, and white. -/
theorem grey_cases : (i < blackCount level ∧ grey level i = 0) ∨
    (∃ x < between level, i = blackCount level + x ∧
      grey level i = Shares.share (between level / 14) (between level % 14) x + 1) ∨
    (blackCount level + between level ≤ i ∧ grey level i = 15) := by
  have hb := between_eq h
  have hwhite : 256 - whiteCount level = blackCount level + between level := by
    unfold blackCount whiteCount
    omega
  by_cases hblack : i < blackCount level
  · exact .inl ⟨hblack, if_pos hblack⟩
  obtain ⟨x, rfl⟩ := Nat.exists_eq_add_of_le (Nat.le_of_not_lt hblack)
  by_cases hx : x < between level
  · exact .inr (.inl ⟨x, hx, rfl, grey_dealt h hx.le⟩)
  · refine .inr (.inr ⟨by omega, ?_⟩)
    unfold grey
    rw [if_neg hblack, if_neg (by omega)]

/-- The values that are darker than a grey. -/
theorem grey_lt_iff {g : Nat} (hi : i < 256) (hg : g ≤ 16) :
    grey level i < g ↔ i < greyStart level g := by
  have hq := sixth_pos h
  have hall := start_between level
  cases g with
  | zero =>
    exact iff_of_false (Nat.not_lt_zero _) (Nat.not_lt_zero _)
  | succ g =>
    by_cases hlast : g = 15
    · subst hlast
      rw [greyStart_last h]
      refine ⟨fun _ => hi, fun _ => ?_⟩
      obtain ⟨-, hgrey⟩ | ⟨x, hx, -, hgrey⟩ | ⟨-, hgrey⟩ := grey_cases (i := i) h
      · omega
      · have hshare := (Shares.share_lt_iff hq).2 (Nat.lt_of_lt_of_eq hx hall.symm)
        omega
      · omega
    · rw [greyStart_succ (by omega)]
      obtain ⟨hlt, hgrey⟩ | ⟨x, hx, rfl, hgrey⟩ | ⟨hle, hgrey⟩ := grey_cases (i := i) h
      · omega
      · rw [hgrey, Nat.add_lt_add_iff_right, Shares.share_lt_iff hq]
        omega
      · have hmono := Shares.start_mono (q := between level / 14) (r := between level % 14)
          (show g ≤ 14 by omega)
        omega

/-- The values of a grey. -/
theorem grey_eq_iff {g : Nat} (hi : i < 256) (hg : g ≤ 15) :
    grey level i = g ↔ greyStart level g ≤ i ∧ i < greyStart level (g + 1) := by
  have hlt := grey_lt_iff h hi (g := g) (by omega)
  have hlt' := grey_lt_iff h hi (g := g + 1) (by omega)
  omega

end Level

/-- At the highest level nothing is left between black and white. -/
theorem levels_max : levels 80 = ⟨156, 0, 156, 0⟩ := by decide

theorem entry_max {i : Nat} {f : Fill} (hf : f.remainder = 0) (hi : i ≤ 156) :
    f.entry ⟨156, 0, 156, 0⟩ i =
      if i < 156 then some { f with gama := put f.gama (i, 0) } else none := by
  unfold Fill.entry
  by_cases hlt : i < 156
  · rw [if_pos hlt]
    exact if_pos (Int.ofNat_lt.2 hlt)
  · obtain rfl : i = 156 := by omega
    simp [hf, quotient]

/-- The value on which the loop divides by `mChangeMultiple`, which is 0. -/
theorem initGammaTable_max (s : Gamma) : initGammaTable 80 s = none := by
  have hfold : Nat.fold 256 (fun i _ f => f.bind (Fill.entry ⟨156, 0, 156, 0⟩ i))
      (some ⟨s.gama, 0⟩) = none := by
    refine And.right (fold_rule (I := fun i (o : Option Fill) =>
      (∀ f ∈ o, f.remainder = 0) ∧ (156 < i → o = none)) ?_ ?_) (by decide)
    · exact ⟨fun f hf => by cases hf; rfl, fun hlt => absurd hlt (by decide)⟩
    · rintro i o - ⟨hrest, hnone⟩
      cases o with
      | none => exact ⟨fun f hf => (by cases hf), fun _ => rfl⟩
      | some f =>
        have hi : i ≤ 156 := Nat.le_of_not_lt fun hlt => nomatch hnone hlt
        rw [Option.bind_some, entry_max (hrest f rfl) hi]
        split
        · exact ⟨fun f' hf' => by cases hf'; exact hrest f rfl, fun _ => by omega⟩
        · exact ⟨fun f' hf' => (by cases hf'), fun _ => rfl⟩
  unfold initGammaTable
  rw [if_neg (by decide), levels_max]
  simp only [hfold]
  rfl

/-- **How the greys are dealt**: at a level in range, the values of each grey are as many as
`greyCount` says and follow those of the darker grey; the highest level divides by zero, and a level
out of range changes nothing. -/
theorem gama_shares (gammaLevel : Int) (s : Gamma) :
    (initGammaTable gammaLevel s = none ↔ gammaLevel = maxGammaLevel) ∧
    ∀ s', initGammaTable gammaLevel s = some s' →
      if 0 ≤ gammaLevel ∧ gammaLevel < maxGammaLevel then
        s'.lastGammaLevel = gammaLevel ∧ ∀ i < 256, ∀ g ≤ 15, s'.gama i = (g : Nat) ↔
          greyStart gammaLevel.toNat g ≤ i ∧
            i < greyStart gammaLevel.toNat g + greyCount gammaLevel.toNat g
      else s' = s := by
  by_cases hin : 0 ≤ gammaLevel ∧ gammaLevel < maxGammaLevel
  · obtain ⟨level, rfl⟩ := Int.eq_ofNat_of_zero_le hin.1
    have h : level < 80 := Int.ofNat_lt.1 hin.2
    obtain ⟨gama, heq, hgama⟩ := initGammaTable_eq h s
    rw [heq]
    refine ⟨⟨fun hn => (by cases hn), fun hmax => absurd hin.2 (by omega)⟩, ?_⟩
    rintro s' ⟨⟩
    rw [if_pos hin]
    refine ⟨rfl, fun i hi g hg => ?_⟩
    show gama i = (g : Nat) ↔ _
    rw [hgama i hi, Int.toNat_natCast]
    exact Int.ofNat_inj.trans (grey_eq_iff h hi hg)
  · simp only [if_neg hin]
    by_cases hmax : gammaLevel = maxGammaLevel
    · subst hmax
      have hnone : initGammaTable maxGammaLevel s = none := initGammaTable_max s
      rw [hnone]
      exact ⟨⟨fun _ => rfl, fun _ => rfl⟩, fun s' hs' => (by cases hs')⟩
    · have hout : initGammaTable gammaLevel s = some s := if_pos (by omega)
      rw [hout]
      exact ⟨⟨fun hn => (by cases hn), fun he => absurd he hmax⟩, fun s' hs' => by cases hs'; rfl⟩

theorem gama_shares_30 : ∃ s', initGammaTable 30 {} = some s' ∧ ∀ i < 256, ∀ g ≤ 15,
    s'.gama i = (g : Nat) ↔ greyStart 30 g ≤ i ∧ i < greyStart 30 g + greyCount 30 g := by
  obtain ⟨hnone, hsome⟩ := gama_shares 30 {}
  cases h : initGammaTable 30 {} with
  | none => exact absurd (hnone.1 h) (by decide)
  | some s' => exact ⟨s', rfl, (hsome s' h).2⟩

/-! ## `gray256_to_gray16` -/

/-- A call, with the value that `sys.gray.gammalevel` has then. -/
structure GammaCall where
  gammalevel : Int
  img : Int → BitVec 8
  h : Nat
  w : Nat
  virW : Nat

/-- `static_cast<int>(src_data)`. Whether a `char` is signed is up to the ABI. -/
def subscript (signedChar : Bool) (p : BitVec 8) : Int := if signedChar then p.toInt else p.toNat

/-- `gama[i]`, undefined out of bounds. -/
def Gamma.entry (s : Gamma) (i : Int) : Option Int :=
  if 0 ≤ i ∧ i < 256 then some (s.gama i.toNat) else none

/-- The byte of two pixels. -/
def Gamma.byte (signedChar : Bool) (s : Gamma) (p0 p1 : Option (BitVec 8)) : Option (BitVec 8) := do
  let g0 ← s.entry (subscript signedChar (← p0))
  let g3 ← s.entry (subscript signedChar (← p1))
  some (BitVec.ofInt 8 g0 ||| BitVec.ofInt 8 (g3.shiftLeft 4))

/-- `gray256_to_gray16`: the statics afterwards, and the stores. -/
def gray256ToGray16 (signedChar : Bool) (c : GammaCall) (s : Gamma) :
    Option (Gamma × List (Int × Option (BitVec 8))) :=
  (if c.gammalevel ≠ s.lastGammaLevel then initGammaTable c.gammalevel s else some s).map fun s =>
    (s, logoLoops (s.byte signedChar) (fun p => some (c.img p)) c.h c.w c.virW)

/-- The statics after the calls, the first one first. -/
def gammaCalls (signedChar : Bool) (calls : List GammaCall) : Option Gamma :=
  calls.foldlM (fun s c => (gray256ToGray16 signedChar c s).map Prod.fst) {}

/-! ## The level in force -/

/-- The levels, and whether `init_gamma_table` makes a table for them. -/
def offers (levels : List Int) : List (Int × Bool) :=
  levels.map fun l => (l, decide (0 ≤ l ∧ l < maxGammaLevel))

/-- The level of the table. Level 0 is the initial value of `last_gamma_level`, so that there is no
table before the first level above it. -/
def inForce (levels : List Int) : Option Nat :=
  Cached.value (fun l => some l.toNat) 0 none (offers levels)

/-- What a value is shown as. -/
def shade : Option Nat → Nat → Nat
  | none, _ => 0
  | some level, i => grey level i

/-- The statics after calls with these levels. -/
structure Gamma.After (levels : List Int) (s : Gamma) : Prop where
  last : s.lastGammaLevel = Cached.last 0 (offers levels)
  gama : ∀ i < 256, s.gama i = (shade (inForce levels) i : Nat)

section After
variable {levels : List Int} {level : Int} {s : Gamma}

theorem last_range (levels : List Int) :
    0 ≤ Cached.last 0 (offers levels) ∧ Cached.last 0 (offers levels) < maxGammaLevel := by
  obtain hz | hmem := Cached.last_cases 0 (offers levels)
  · rw [hz]
    decide
  · generalize Cached.last 0 (offers levels) = l at hmem
    have hin : l ∈ levels ∧ 0 ≤ l ∧ l < maxGammaLevel := by
      simpa [Cached.accepted, offers] using hmem
    exact hin.2

/-- A call with a level that is not the highest one. -/
theorem Gamma.After.next (hs : s.After levels) (h : level ≠ maxGammaLevel) :
    ∃ s', (if level ≠ s.lastGammaLevel then initGammaTable level s else some s) = some s' ∧
      s'.After (levels ++ [level]) := by
  have hwrite : Cached.Cache.write (fun l : Int => some l.toNat)
      ⟨Cached.last 0 (offers levels), inForce levels⟩
      (level, decide (0 ≤ level ∧ level < maxGammaLevel)) =
      ⟨Cached.last 0 (offers (levels ++ [level])), inForce (levels ++ [level])⟩ := by
    unfold inForce offers
    rw [List.map_append]
    exact Cached.write_last _
  unfold Cached.Cache.write at hwrite
  by_cases hin : level ≠ s.lastGammaLevel ∧ 0 ≤ level ∧ level < maxGammaLevel
  · rw [if_pos (by simpa [← hs.last] using hin), Cached.Cache.mk.injEq] at hwrite
    obtain ⟨hlast, hvalue⟩ := hwrite
    obtain ⟨n, rfl⟩ := Int.eq_ofNat_of_zero_le hin.2.1
    obtain ⟨gama, heq, hgama⟩ := initGammaTable_eq (Int.ofNat_lt.1 hin.2.2) s
    refine ⟨_, (if_pos hin.1).trans heq, hlast, fun i hi => ?_⟩
    rw [← hvalue]
    exact hgama i hi
  · rw [if_neg (by simpa [← hs.last] using hin), Cached.Cache.mk.injEq] at hwrite
    obtain ⟨hlast, hvalue⟩ := hwrite
    refine ⟨s, ?_, by rw [hs.last, hlast], fun i hi => ?_⟩
    · by_cases hsame : level = s.lastGammaLevel
      · exact if_neg (not_not.2 hsame)
      · have hout : initGammaTable level s = some s := if_pos (by omega)
        rw [hout, ite_self]
    · rw [← hvalue]
      exact hs.gama i hi

end After

/-! ## The pictures -/

/-- The greys of two pixels, the first one in the lower nibble. -/
def packGreys (table : Nat → Nat) (p0 p1 : BitVec 8) : BitVec 8 :=
  BitVec.ofNat 8 (table p0.toNat + table p1.toNat * 16)

section Calls
variable {signedChar : Bool} {calls : List GammaCall} {c : GammaCall} {levels : List Int}
  {s : Gamma}

theorem inForce_lt {level : Nat} (h : inForce levels = some level) : level < 80 := by
  have hrange := (last_range levels).2
  unfold maxGammaLevel at hrange
  unfold inForce Cached.value at h
  split at h
  · obtain rfl := Option.some.inj h
    omega
  · cases h

theorem shade_lt {i : Nat} (hi : i < 256) : shade (inForce levels) i < 16 := by
  cases h : inForce levels with
  | none => exact Nat.succ_pos 15
  | some level =>
    have hlt := inForce_lt h
    exact (grey_lt_iff hlt hi (Nat.le_refl 16)).2 (by rw [greyStart_last hlt]; exact hi)

theorem entry_subscript (hs : s.After levels) (p : BitVec 8) : s.entry (subscript signedChar p) =
    if signedChar = true ∧ p.msb = true then none
    else some ((shade (inForce levels) p.toNat : Nat) : Int) := by
  have hp := p.isLt
  unfold Gamma.entry subscript
  by_cases hneg : signedChar = true ∧ p.msb = true
  · have hlt := BitVec.toInt_neg_of_msb_true hneg.2
    rw [if_pos hneg, if_pos hneg.1, if_neg (by omega)]
  · have hval : (if signedChar = true then p.toInt else p.toNat) = (p.toNat : Int) := by
      by_cases hc : signedChar = true
      · rw [if_pos hc, BitVec.toInt_eq_toNat_of_msb (by simpa using fun h => hneg ⟨hc, h⟩)]
      · rw [if_neg hc]
    rw [if_neg hneg, hval, if_pos (by omega), Int.toNat_natCast, hs.gama _ hp]

theorem or_greys : ∀ a < (16 : Nat), ∀ b < (16 : Nat),
    BitVec.ofInt 8 (a : Int) ||| BitVec.ofInt 8 ((b : Int).shiftLeft 4) =
      BitVec.ofNat 8 (a + b * 16) := by
  decide +kernel

theorem byte_eq (hs : s.After levels) (p0 p1 : BitVec 8) :
    s.byte signedChar (some p0) (some p1) =
      if signedChar = true ∧ (p0.msb = true ∨ p1.msb = true) then none
      else some (packGreys (shade (inForce levels)) p0 p1) := by
  have hor := or_greys _ (@shade_lt levels _ p0.isLt) _ (@shade_lt levels _ p1.isLt)
  unfold Gamma.byte packGreys
  simp only [Option.bind_eq_bind, Option.bind_some, entry_subscript hs]
  by_cases h : signedChar = true ∧ (p0.msb = true ∨ p1.msb = true)
  · rw [if_pos h]
    obtain ⟨hc, h0 | h1⟩ := h
    · rw [if_pos ⟨hc, h0⟩]
      rfl
    · rw [if_pos (show signedChar = true ∧ p1.msb = true from ⟨hc, h1⟩)]
      split <;> rfl
  · have h0 : ¬ (signedChar = true ∧ p0.msb = true) := fun h0 => h ⟨h0.1, .inl h0.2⟩
    have h1 : ¬ (signedChar = true ∧ p1.msb = true) := fun h1 => h ⟨h1.1, .inr h1.2⟩
    rw [if_neg h, if_neg h0, if_neg h1, Option.bind_some, Option.bind_some, hor]

theorem gammaCalls_concat : gammaCalls signedChar (calls ++ [c]) =
    (gammaCalls signedChar calls).bind fun s => (gray256ToGray16 signedChar c s).map Prod.fst := by
  unfold gammaCalls
  rw [List.foldlM_append]
  simp

/-- A call with the highest level divides by zero; any other one sets the table in force. -/
theorem call_after (signedChar : Bool) (hs : s.After levels) (c : GammaCall) :
    (c.gammalevel = maxGammaLevel ∧ gray256ToGray16 signedChar c s = none) ∨
    (c.gammalevel ≠ maxGammaLevel ∧ ∃ s', s'.After (levels ++ [c.gammalevel]) ∧
      gray256ToGray16 signedChar c s = some
        (s', logoLoops (s'.byte signedChar) (fun p => some (c.img p)) c.h c.w c.virW)) := by
  unfold gray256ToGray16
  by_cases hmax : c.gammalevel = maxGammaLevel
  · refine .inl ⟨hmax, ?_⟩
    have hlast : maxGammaLevel ≠ s.lastGammaLevel := by
      rw [hs.last]
      exact (last_range levels).2.ne'
    have hnone : initGammaTable maxGammaLevel s = none := initGammaTable_max s
    rw [hmax, if_pos hlast, hnone]
    rfl
  · obtain ⟨s', hset, hs'⟩ := hs.next hmax
    refine .inr ⟨hmax, s', hs', ?_⟩
    rw [hset]
    rfl

/-- The statics after any calls. -/
theorem gammaCalls_after (signedChar : Bool) (calls : List GammaCall) :
    (gammaCalls signedChar calls = none ∧ ∃ d ∈ calls, d.gammalevel = maxGammaLevel) ∨
    ((∀ d ∈ calls, d.gammalevel ≠ maxGammaLevel) ∧ ∃ s, gammaCalls signedChar calls = some s ∧
      s.After (calls.map (·.gammalevel))) := by
  induction calls using List.reverseRecOn with
  | nil => exact .inr ⟨fun d hd => (by cases hd), {}, rfl, rfl, fun i _ => rfl⟩
  | append_singleton calls c ih =>
    rw [gammaCalls_concat]
    obtain ⟨hnone, d, hd, hmax⟩ | ⟨hne, s, hsome, hs⟩ := ih
    · rw [hnone]
      exact .inl ⟨rfl, d, List.mem_append_left _ hd, hmax⟩
    · rw [hsome, Option.bind_some]
      obtain ⟨hmax, hcall⟩ | ⟨hmax, s', hs', hcall⟩ := call_after signedChar hs c
      · rw [hcall]
        exact .inl ⟨rfl, c, List.mem_append_right _ (List.mem_singleton_self c), hmax⟩
      · rw [hcall]
        refine .inr ⟨fun d hd => ?_, s', rfl, ?_⟩
        · rcases List.mem_append.1 hd with hd | hd
          · exact hne d hd
          · obtain rfl := List.mem_singleton.1 hd
            exact hmax
        · rw [List.map_append]
          exact hs'

/-- **The level in force**: the calls run until one has the highest level, which divides by zero.
Each picture is packed by the table of the last level in range, its own included; until there has
been a level above 0 they are all black. A signed `char` reads outside the table. -/
theorem gray16_gamma (signedChar : Bool) (calls : List GammaCall) (c : GammaCall) :
    (gammaCalls signedChar calls = none ↔ ∃ d ∈ calls, d.gammalevel = maxGammaLevel) ∧
    ∀ s s' out, gammaCalls signedChar calls = some s →
      gray256ToGray16 signedChar c s = some (s', out) → ∀ m (y k : Nat), y < c.h → k < c.w / 2 →
        run m out (y * (c.w / 2 : Nat) + k) =
          let p0 := c.img (y * (2 * (c.w / 2 : Nat)) + 2 * k)
          let p1 := c.img (y * (2 * (c.w / 2 : Nat)) + 2 * k + 1)
          if signedChar = true ∧ (p0.msb = true ∨ p1.msb = true) then none
          else some (packGreys (shade (inForce ((calls ++ [c]).map (·.gammalevel)))) p0 p1) := by
  obtain ⟨hnone, hmax⟩ | ⟨hne, s₀, hsome, hs₀⟩ := gammaCalls_after signedChar calls
  · rw [hnone]
    exact ⟨⟨fun _ => hmax, fun _ => rfl⟩, fun s s' out hs => (by cases hs)⟩
  · rw [hsome]
    refine ⟨⟨fun hs => (by cases hs), fun ⟨d, hd, hmax⟩ => absurd hmax (hne d hd)⟩, ?_⟩
    rintro s s' out ⟨⟩ hcall m y k hy hk
    obtain ⟨-, hcall'⟩ | ⟨-, s'', hs'', hcall'⟩ := call_after signedChar hs₀ c
    · rw [hcall'] at hcall
      cases hcall
    · rw [hcall'] at hcall
      cases hcall
      rw [logoLoops_eq, run_packRow _ _ _ hy hk, byte_eq hs'', List.map_append]
      rfl

/-- Two pixels at level 30, then with a level out of range. -/
def call30 (gammalevel : Int) : GammaCall :=
  { gammalevel, img := fun p => if p = 0 then 200#8 else 255#8, h := 1, w := 2, virW := 2 }

theorem gray16_gamma_30 : ∃ s s' out, gammaCalls false [call30 30] = some s ∧
    gray256ToGray16 false (call30 (-1)) s = some (s', out) ∧
    ∀ m, run m out 0 = some 0xfc#8 := by
  obtain ⟨hnone, hrun⟩ := gray16_gamma false [call30 30] (call30 (-1))
  cases hs : gammaCalls false [call30 30] with
  | none => exact absurd (hnone.1 hs) (by decide)
  | some s =>
    have hlast : s.lastGammaLevel = 30 := by
      obtain ⟨hn, -⟩ | ⟨-, s₀, hs₀, hafter⟩ := gammaCalls_after false [call30 30]
      · rw [hs] at hn
        cases hn
      · rw [hs] at hs₀
        cases hs₀
        exact hafter.last
    have hcall : gray256ToGray16 false (call30 (-1)) s = some
        (s, logoLoops (s.byte false) (fun p => some ((call30 (-1)).img p)) 1 2 2) := by
      unfold gray256ToGray16
      rw [if_pos (by rw [hlast]; decide)]
      rfl
    exact ⟨s, s, _, rfl, hcall, fun m =>
      (hrun s s _ hs hcall m 0 0 (by decide) (by decide)).trans (by decide +kernel)⟩

end Calls

end Dither

end EinkHwc
