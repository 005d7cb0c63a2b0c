import EinkHwc.Dither.Bounds2
import EinkHwc.Dither.Packers

/-!
# Black and white pictures

`gray256_to_gray2` packs a picture by a threshold. On a picture that is black and white already,
`Luma8bit_to_4bit_row_2` has no errors to pass on and packs it by a threshold too, with the first
pixel of a pair in the lower nibble; `gray256_to_gray2` has it in the upper one.

* `Lines.Quiet`, `quiet_pixel`: no error arises.
* `rows_of_binary`: the bytes that the rows store.
* `gray2_agree_iff`: the frames are the same exactly if the pixels of each pair are.
-/

namespace EinkHwc

open Mem

namespace Dither

/-! ## `gray256_to_gray2` -/

/-- `g0 | g3`, as `unsigned char`. -/
def gray2Byte (p0 p1 : BitVec 8) : BitVec 8 :=
  let g0 := if p0 > 0x80#8 then 0xf0#8 else 0x00#8
  let g3 := if p1 > 0x80#8 then 0xf#8 else 0x0#8
  g0 ||| g3

/-- `gray256_to_gray2`: the loops are those of `logo_gray256_to_gray16`. -/
def gray256ToGray2 (img : Int → BitVec 8) (h w virW : Nat) : List (Int × BitVec 8) :=
  logoLoops gray2Byte img h w virW

/-! ## Rows without errors -/

/-- The pixels of a black and white picture. -/
def IsBinary (p : BitVec 8) : Prop := p = 0x00#8 ∨ p = 0xf0#8

/-- The byte that `Luma8bit_to_4bit_row_2` stores for two levels. -/
def row2Byte (p0 p1 : BitVec 8) : BitVec 8 :=
  (nibble2 0x80 p1.toNat <<< 4 ||| nibble2 0x80 p0.toNat).setWidth 8

/-- Neither line buffer has a residual, and nothing is carried. -/
structure Lines.Quiet (s : Lines) : Prop where
  v0 : s.v0 = 0
  res0 : ∀ k, s.res0 k = 0
  res1 : ∀ k, s.res1 k = 0

section Rows
variable {img : Int → BitVec 8}

/-- A black or white pixel is its own level. -/
theorem quiet_pixel {s : Lines} (hs : s.Quiet) {p : BitVec 8} (hp : IsBinary p) {data : Int}
    (hdata : data = p.toNat) {i : Nat} {left : Bool} (right : Bool) (hleft : left = true → 0 < i) :
    (s.pixel (quant2 0x80) data i left right).gTemp = p.toNat ∧
      (s.pixel (quant2 0x80) data i left right).Quiet := by
  have hclip : clip (data + s.res0 i + s.v0) = p.toNat := by
    rw [hs.v0, hs.res0, hdata]
    rcases hp with rfl | rfl <;> decide
  have herr : clip (data + s.res0 i + s.v0) -
      (quant2 0x80 (clip (data + s.res0 i + s.v0))).toInt = 0 := by
    rw [hclip]
    rcases hp with rfl | rfl <;> decide
  refine ⟨pixel_gTemp.trans hclip, ?_, fun k => ?_, fun k => ?_⟩
  · rw [pixel_v0, herr]
    decide
  · rw [pixel_res0, hs.res0]
    split <;> rfl
  · rw [pixel_res1 hleft herr.symm, hs.res1]
    split_ifs <;> decide

/-- The row after `n` steps. -/
structure Row2.Quiet (img : Int → BitVec 8) (a d : Int) (n : Nat) (r : Row2) : Prop where
  lines : r.lines.Quiet
  src : r.src = a + 2 * n
  dst : r.dst = d + n
  out : r.out = (List.range n).map fun k : Nat =>
    (d + k, row2Byte (img (a + 2 * k)) (img (a + 2 * k + 1)))

theorem quiet_block2 {a d : Int} {n : Nat} {r : Row2} (hr : r.Quiet img a d n)
    (h0 : IsBinary (img (a + 2 * n))) (h1 : IsBinary (img (a + 2 * n + 1))) :
    (block2 img 0x80 (2 * n) r).Quiet img a d (n + 1) := by
  obtain ⟨hd0, hd1⟩ := short_toInt img r.src
  rw [← hr.src] at h0 h1
  have hleft (h : decide (2 * n ≠ 0) = true) : 0 < 2 * n := by
    have hne := of_decide_eq_true h
    omega
  have hleft1 (_ : true = true) : 0 < 2 * n + 1 := Nat.succ_pos _
  obtain ⟨hg0, hs0⟩ := quiet_pixel hr.lines h0 hd0 true hleft
  obtain ⟨hg1, hs1⟩ := quiet_pixel hs0 h1 hd1 true hleft1
  refine ⟨hs1, ?_, ?_, ?_⟩
  · show r.src + 2 = _
    rw [hr.src]
    push_cast
    omega
  · show r.dst + 1 = _
    rw [hr.dst]
    push_cast
    omega
  · show r.out ++ [(r.dst, (nibble2 0x80 _ <<< 4 ||| nibble2 0x80 _).setWidth 8)] = _
    rw [hg1, hg0, hr.out, hr.src, hr.dst, List.range_succ, List.map_append]
    rfl

theorem quiet_row2 {a d : Int} {half : Nat} {res0 res1 : Nat → Int}
    (h0 : ∀ k, res0 k = 0) (h1 : ∀ k, res1 k = 0)
    (himg : ∀ x : Nat, x < 2 * half → IsBinary (img (a + x))) :
    (luma8bitTo4bitRow2 img a d res0 res1 (2 * half : Nat) 0x80).Quiet img a d half := by
  have hsteps : (((2 * half : Nat) + 1 : Int) / 2).toNat = half := by omega
  unfold luma8bitTo4bitRow2
  rw [hsteps]
  refine fold_rule (I := Row2.Quiet img a d) ?_ fun n r hn hr => ?_
  · exact ⟨⟨rfl, h0, h1⟩, (Int.add_zero a).symm, (Int.add_zero d).symm, rfl⟩
  · have hp0 := himg (2 * n) (by omega)
    have hp1 := himg (2 * n + 1) (by omega)
    push_cast at hp0 hp1
    rw [← Int.add_assoc] at hp1
    exact quiet_block2 hr hp0 hp1

/-- Rows of black and white pixels, from line buffers without residuals on. -/
theorem rows_of_binary {half n : Nat} {b : Bool} {addr : Nat → Int × Int} {p : Pass}
    (hbuf : ∀ c k, p.lineBuffer c k = 0)
    (himg : ∀ y x : Nat, y < n → x < 2 * half → IsBinary (img ((addr y).1 + x))) :
    (rows img (2 * half : Nat) 0x80 b addr n p).out =
      p.out ++ (List.range n).flatMap fun y => (List.range half).map fun k : Nat =>
        ((addr y).2 + k, row2Byte (img ((addr y).1 + 2 * k)) (img ((addr y).1 + 2 * k + 1))) := by
  refine And.right (fold_rule (I := fun n (q : Pass) => (∀ c k, q.lineBuffer c k = 0) ∧
    q.out = p.out ++ (List.range n).flatMap _) ⟨hbuf, by simp⟩ ?_)
  rintro y q hy ⟨hq, hout⟩
  have hrow := quiet_row2 (d := (addr y).2) (hq (b ^^ decide (y % 2 = 1)))
    (hq !(b ^^ decide (y % 2 = 1))) fun x => himg y x hy
  refine ⟨fun c k => ?_, ?_⟩
  · rw [row_lineBuffer, hrow.lines.res0, hrow.lines.res1]
    split <;> rfl
  · show q.out ++ Row2.out _ = _
    rw [hrow.out, hout, List.range_succ, List.flatMap_append, List.append_assoc]
    simp

end Rows

/-! ## The two packings -/

/-- The rows of a packed frame of `w` pixels a row, and of its picture. -/
def frameAddr (w : Nat) (y : Nat) : Int × Int := (y * w, y * (w / 2 : Nat))

theorem gray2Byte_eq_row2Byte {p0 p1 : BitVec 8} (h0 : IsBinary p0) (h1 : IsBinary p1) :
    gray2Byte p0 p1 = row2Byte p0 p1 ↔ p0 = p1 := by
  rcases h0 with rfl | rfl <;> rcases h1 with rfl | rfl <;> decide

/-- Two frames that are packed from the same pictures are the same exactly if their bytes are. -/
theorem run_packRow_eq_iff {byte byte' : BitVec 8 → BitVec 8 → BitVec 8}
    {img : Int → BitVec 8} {h half : Nat} :
    (∀ m, run m ((List.range h).flatMap (packRow byte img half)) =
      run m ((List.range h).flatMap (packRow byte' img half))) ↔
      ∀ y k : Nat, y < h → k < half →
        byte (img (y * (2 * half) + 2 * k)) (img (y * (2 * half) + 2 * k + 1)) =
          byte' (img (y * (2 * half) + 2 * k)) (img (y * (2 * half) + 2 * k + 1)) := by
  constructor
  · intro heq y k hy hk
    rw [← run_packRow byte img (fun _ => 0) hy hk, heq, run_packRow byte' img _ hy hk]
  · intro heq m
    congr 1
    apply List.flatMap_congr
    intro y hy
    apply List.map_congr_left
    intro k hk
    rw [heq y k (List.mem_range.1 hy) (List.mem_range.1 hk)]

/-- **The two binarisers swap the nibbles**: on a black and white picture they store the same frame
exactly if the two pixels of every byte are the same. -/
theorem gray2_agree_iff (img : Int → BitVec 8) (h w : Nat) (hw : w % 2 = 0)
    (himg : ∀ p : Int, 0 ≤ p → p < h * w → IsBinary (img p)) :
    (∀ m, run m (gray256ToGray2 img h w w) =
      run m (rows img w 0x80 false (frameAddr w) h {}).out) ↔
      ∀ y x : Nat, y < h → 2 * x + 1 < w → img (y * w + 2 * x) = img (y * w + (2 * x + 1)) := by
  obtain ⟨half, rfl⟩ : ∃ half, w = 2 * half := ⟨w / 2, by omega⟩
  have hhalf : 2 * half / 2 = half := by omega
  have hbin (y x : Nat) (hy : y < h) (hx : x < 2 * half) :
      IsBinary (img (y * (2 * half : Nat) + x)) := by
    obtain ⟨h0, hlt⟩ : 0 ≤ (y : Int) * (2 * half : Nat) + x ∧
        (y : Int) * (2 * half : Nat) + x < h * (2 * half : Nat) :=
      offset_bounds ⟨by omega, by omega⟩ ⟨by omega, by omega⟩
    exact himg _ h0 hlt
  have hrows : (rows img (2 * half : Nat) 0x80 false (frameAddr (2 * half)) h {}).out =
      (List.range h).flatMap (packRow row2Byte img half) := by
    rw [rows_of_binary (fun _ _ => rfl) hbin, List.nil_append]
    unfold frameAddr packRow
    rw [hhalf]
    push_cast
    rfl
  unfold gray256ToGray2
  rw [logoLoops_eq, hhalf, hrows, run_packRow_eq_iff]
  have hiff (y k : Nat) (hy : y < h) (hk : k < half) :
      gray2Byte (img (y * (2 * half) + 2 * k)) (img (y * (2 * half) + 2 * k + 1)) =
        row2Byte (img (y * (2 * half) + 2 * k)) (img (y * (2 * half) + 2 * k + 1)) ↔
      img (y * (2 * half : Nat) + 2 * k) = img (y * (2 * half : Nat) + (2 * k + 1)) := by
    have h0 := hbin y (2 * k) hy (by omega)
    have h1 := hbin y (2 * k + 1) hy (by omega)
    push_cast at h0 h1 ⊢
    rw [← Int.add_assoc] at h1 ⊢
    exact gray2Byte_eq_row2Byte h0 h1
  constructor
  · intro heq y x hy hx
    exact (hiff y x hy (by omega)).1 (heq y x hy (by omega))
  · intro heq y k hy hk
    exact (hiff y k hy hk).2 (heq y k hy (by omega))

theorem gray2_agree_iff_white :
    (∀ m, run m (gray256ToGray2 (fun _ => 0xf0#8) 2 4 4) =
      run m (rows (fun _ => 0xf0#8) (4 : Nat) 0x80 false (frameAddr 4) 2 {}).out) ↔
      ∀ y x : Nat, y < 2 → 2 * x + 1 < 4 → 0xf0#8 = 0xf0#8 :=
  gray2_agree_iff (fun _ => 0xf0#8) 2 4 (by decide) fun _ _ _ => .inr rfl

/-- A white pixel followed by a black one. -/
theorem gray2_swapped : ¬ ∀ (img : Int → BitVec 8) (h w : Nat), w % 2 = 0 →
    (∀ p : Int, 0 ≤ p → p < h * w → IsBinary (img p)) →
    ∀ m, run m (gray256ToGray2 img h w w) =
      run m (rows img w 0x80 false (frameAddr w) h {}).out := by
  intro hall
  have heq := hall (fun p => if p = 0 then 0xf0#8 else 0x00#8) 1 2 rfl
    (fun p _ _ => by
      show IsBinary (if p = 0 then _ else _)
      split
      · exact .inr rfl
      · exact .inl rfl) fun _ => 0
  have hbyte := congrFun heq 0
  revert hbyte
  decide +kernel

end Dither

end EinkHwc
