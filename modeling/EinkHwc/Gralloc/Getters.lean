import EinkHwc.Gralloc.Metadata

/-!
# What the getters report

A getter that returns `OK` should have stored a value that the service gave (`Reports`). A plane
layout list or a list of file descriptors may be empty: the getters return `OK` on the first without
a store, and take the front of the second.

* `byteStrideFrom`, `bitPerPixelFrom`, `pixelStrideFrom`, `fdFrom`: the values in the answers.
* `byteStrideOut`, `bitPerPixelOut`: the results of the two getters that the others call.
* `getters_report_iff`: the answers with which each getter, and `hwc_get_handle_stride`, reports.
-/

namespace EinkHwc

namespace Gralloc4

/-- The result of a getter on the answers to come. -/
def result {τ : Type} (m : QueryM τ) (s : Nat → Answer) : Except Fault τ := (m s).map Prod.fst

/-- A returned `OK` comes with `value`, which is there, and no list is read past its end. -/
structure Reports (r : Except Fault Stored) (value : Option (BitVec 32)) : Prop where
  divides : r ≠ .error .divByZero
  indexes : r ≠ .error .emptyIndex
  assigns : ∀ out, r = .ok (OK, out) → out.isSome ∧ out = value

def firstLayout (a : Answer) : Option PlaneLayout := a.planeLayouts.toOption.bind List.head?

def bitPerPixelFrom (a : Answer) : Option (BitVec 32) :=
  (firstLayout a).map fun layout => layout.sampleIncrementInBits.setWidth 32

def fdFrom (a : Answer) : Option (BitVec 32) :=
  (a.planeFds.toOption.bind List.head?).map (·.setWidth 32)

section Nv12
variable (nv12_10 : BitVec 32)

/-- By the format in `a`, from the first plane or the width in `b`. -/
def byteStrideFrom (a b : Answer) : Option (BitVec 32) :=
  a.formatRequested.toOption.bind fun format =>
    if format ≠ nv12_10 then (firstLayout b).map fun layout => layout.strideInBytes.setWidth 32
    else b.width.toOption.map (·.setWidth 32)

def pixelStrideFrom (s : Nat → Answer) : Option (BitVec 32) := do
  let byteStride ← byteStrideFrom nv12_10 (s 0) (s 1)
  let bitPerPixel ← bitPerPixelFrom (s 3)
  (pixelStrideOf byteStride bitPerPixel).toOption

/-- `hwc_get_handle_stride` returns -1 for a failure of `get_pixel_stride`, or the quotient of what
the answers have, by a positive number. -/
def StrideReports (s : Nat → Answer) : Prop := ∃ v, result (hwcGetHandleStride nv12_10) s = .ok v ∧
  ((v = -1#32 ∧ ∃ err out, result (getPixelStride nv12_10) s = .ok (err, out) ∧ err ≠ OK) ∨
    ∃ byteStride bitPerPixel, byteStrideFrom nv12_10 (s 0) (s 1) = some byteStride ∧
      bitPerPixelFrom (s 3) = some bitPerPixel ∧ 0 < bitPerPixel.toInt ∧
      v.toInt = (byteStride.toInt * 8).tdiv bitPerPixel.toInt)

/-! ## The conditions on the answers -/

/-- The layouts in `b`, if `get_byte_stride` asks for them, are not an empty list. -/
def HasByteStride (a b : Answer) : Prop :=
  ∀ format, a.formatRequested = .ok format → format ≠ nv12_10 → b.planeLayouts ≠ .ok []

/-- What `get_byte_stride` asks for is not an error. -/
def StrideAnswered (a b : Answer) : Prop :=
  ∃ format, a.formatRequested = .ok format ∧
    (format ≠ nv12_10 → b.planeLayouts.isOk) ∧ (format = nv12_10 → b.width.isOk)

/-- What `get_pixel_stride` asks for is not an error. -/
def PixelStrideAnswered (s : Nat → Answer) : Prop :=
  StrideAnswered nv12_10 (s 0) (s 1) ∧ (s 2).formatRequested.isOk ∧ (s 3).planeLayouts.isOk

/-! ## The getters in closed form -/

/-- A field of the first plane, with the status of the query. -/
def ofLayouts (field : PlaneLayout → BitVec 64) : Except Failure (List PlaneLayout) → Stored
  | .error err => (err, none)
  | .ok layouts => (OK, layouts.head?.map fun layout => (field layout).setWidth 32)

/-- The result of `get_bit_per_pixel`. -/
def bitPerPixelOut (a b : Answer) : Stored :=
  match a.formatRequested with
  | .error err => (err, none)
  | .ok _ => ofLayouts PlaneLayout.sampleIncrementInBits b.planeLayouts

/-- The result of `get_byte_stride`. -/
def byteStrideOut (a b : Answer) : Stored :=
  match a.formatRequested with
  | .error err => (err, none)
  | .ok format =>
    if format ≠ nv12_10 then ofLayouts PlaneLayout.strideInBytes b.planeLayouts
    else
      match b.width with
      | .error err => (err, none)
      | .ok width => (OK, some (width.setWidth 32))

variable {nv12_10} {s : Nat → Answer} {a b : Answer}

theorem bind_ok {τ σ : Type} {m : QueryM τ} {x : τ} {s s' : Nat → Answer} (k : τ → QueryM σ)
    (h : m s = .ok (x, s')) : (m >>= k) s = k x s' := by
  show (m s).bind _ = _
  rw [h]
  rfl

theorem bind_error {τ σ : Type} {m : QueryM τ} {f : Fault} {s : Nat → Answer} (k : τ → QueryM σ)
    (h : m s = .error f) : (m >>= k) s = .error f := by
  show (m s).bind _ = _
  rw [h]
  rfl

/-- A query takes one answer. -/
theorem query_bind {τ σ : Type} (type : Answer → Except Failure τ)
    (k : Except Failure τ → QueryM σ) (s : Nat → Answer) :
    (query type >>= k) s = k (type (s 0)) fun n => s (n + 1) := rfl

theorem getBitPerPixel_eq (s : Nat → Answer) :
    ∃ s', getBitPerPixel s = .ok (bitPerPixelOut (s 0) (s 1), s') := by
  unfold getBitPerPixel bitPerPixelOut getFormatRequested
  rw [query_bind]
  cases (s 0).formatRequested with
  | error err => exact ⟨_, rfl⟩
  | ok format =>
    simp only
    rw [query_bind]
    cases (s 1).planeLayouts with
    | error err => exact ⟨_, rfl⟩
    | ok layouts => cases layouts <;> exact ⟨_, rfl⟩

/-- A returned `OK` has taken two answers. -/
theorem getByteStride_eq (s : Nat → Answer) : ∃ s',
    getByteStride nv12_10 s = .ok (byteStrideOut nv12_10 (s 0) (s 1), s') ∧
      ((byteStrideOut nv12_10 (s 0) (s 1)).1 = OK → s' = fun n => s (n + 2)) := by
  unfold getByteStride byteStrideOut getFormatRequested
  rw [query_bind]
  cases (s 0).formatRequested with
  | error err => exact ⟨_, rfl, fun h => absurd h err.2⟩
  | ok format =>
    refine ⟨fun n => s (n + 2), ?_, fun _ => rfl⟩
    simp only
    split
    · rw [query_bind]
      cases (s 1).planeLayouts with
      | error err => rfl
      | ok layouts => cases layouts <;> rfl
    · unfold getWidth
      rw [query_bind]
      cases (s 1).width <;> rfl

theorem result_getPixelStride (s : Nat → Answer) : result (getPixelStride nv12_10) s =
    if (byteStrideOut nv12_10 (s 0) (s 1)).1 ≠ OK then
      .ok ((byteStrideOut nv12_10 (s 0) (s 1)).1, none)
    else if (bitPerPixelOut (s 2) (s 3)).1 ≠ OK then .ok ((bitPerPixelOut (s 2) (s 3)).1, none)
    else (pixelStrideOf ((byteStrideOut nv12_10 (s 0) (s 1)).2.getD 0)
      ((bitPerPixelOut (s 2) (s 3)).2.getD 0)).map fun pixelStride => (OK, some pixelStride) := by
  obtain ⟨s', hbyte, hs'⟩ := @getByteStride_eq nv12_10 s
  unfold result getPixelStride
  rw [bind_ok _ hbyte]
  simp only
  split
  · rfl
  · rename_i hok
    obtain rfl := hs' (not_not.1 hok)
    obtain ⟨s'', hbits⟩ := getBitPerPixel_eq fun n => s (n + 2)
    rw [bind_ok _ hbits]
    split
    · rfl
    · rename_i hok'
      rw [not_not.1 hok']
      generalize pixelStrideOf _ _ = r
      cases r <;> rfl

theorem result_hwcGetHandleStride (s : Nat → Answer) : result (hwcGetHandleStride nv12_10) s =
    (result (getPixelStride nv12_10) s).bind fun x =>
      if x.1 ≠ OK then .ok (-1#32)
      else
        match x.2 with
        | some pixelStride => .ok pixelStride
        | none => .error .uninitialized := by
  unfold result hwcGetHandleStride
  cases h : getPixelStride nv12_10 s with
  | error f => rw [bind_error _ h]; rfl
  | ok p =>
    obtain ⟨⟨err, pixelStride⟩, s'⟩ := p
    rw [bind_ok _ h]
    show Except.map Prod.fst ((if err ≠ OK then _ else _ : QueryM (BitVec 32)) s') =
      if err ≠ OK then _ else _
    split
    · rfl
    · cases pixelStride <;> rfl

/-! ## Their values -/

theorem ofLayouts_snd (field : PlaneLayout → BitVec 64) (a : Answer) :
    (ofLayouts field a.planeLayouts).2 =
      (firstLayout a).map fun layout => (field layout).setWidth 32 := by
  unfold firstLayout
  cases a.planeLayouts <;> rfl

theorem ofLayouts_fst (field : PlaneLayout → BitVec 64) (r : Except Failure (List PlaneLayout)) :
    (ofLayouts field r).1 = OK ↔ r.isOk := by
  cases r with
  | error err => exact ⟨fun h => absurd h err.2, nofun⟩
  | ok layouts => exact ⟨fun _ => rfl, fun _ => rfl⟩

theorem firstLayout_isSome (h : b.planeLayouts.isOk) :
    (firstLayout b).isSome ↔ b.planeLayouts ≠ .ok [] := by
  unfold firstLayout
  cases hr : b.planeLayouts with
  | error err =>
    rw [hr] at h
    cases h
  | ok layouts => cases layouts <;> simp [Except.toOption]

theorem bitPerPixelOut_fst (a b : Answer) :
    (bitPerPixelOut a b).1 = OK ↔ a.formatRequested.isOk ∧ b.planeLayouts.isOk := by
  unfold bitPerPixelOut
  cases a.formatRequested with
  | error err => exact ⟨fun h => absurd h err.2, fun h => nomatch h.1⟩
  | ok format => exact (ofLayouts_fst _ _).trans (and_iff_right rfl).symm

theorem bitPerPixelOut_snd (h : a.formatRequested.isOk) (b : Answer) :
    (bitPerPixelOut a b).2 = bitPerPixelFrom b := by
  unfold bitPerPixelOut
  cases hr : a.formatRequested with
  | error err =>
    rw [hr] at h
    cases h
  | ok format => exact ofLayouts_snd _ b

theorem byteStrideOut_fst (a b : Answer) :
    (byteStrideOut nv12_10 a b).1 = OK ↔ StrideAnswered nv12_10 a b := by
  unfold byteStrideOut StrideAnswered
  cases a.formatRequested with
  | error err => exact ⟨fun h => absurd h err.2, fun ⟨_, h, _⟩ => nomatch h⟩
  | ok format =>
    simp only [Except.ok.injEq, exists_eq_left']
    split
    · rename_i hne
      rw [ofLayouts_fst]
      simp [hne]
    · rename_i heq
      cases b.width with
      | error err => simpa [not_not.1 heq, Except.isOk, Except.toBool] using err.2
      | ok width => simp [not_not.1 heq, Except.isOk, Except.toBool]

theorem byteStrideOut_snd (a b : Answer) :
    (byteStrideOut nv12_10 a b).2 = byteStrideFrom nv12_10 a b := by
  unfold byteStrideOut byteStrideFrom
  cases a.formatRequested with
  | error err => rfl
  | ok format =>
    show (if format ≠ nv12_10 then _ else _ : Stored).2 = if format ≠ nv12_10 then _ else _
    split
    · exact ofLayouts_snd _ b
    · cases b.width <;> rfl

theorem byteStrideFrom_isSome (h : StrideAnswered nv12_10 a b) :
    (byteStrideFrom nv12_10 a b).isSome ↔ HasByteStride nv12_10 a b := by
  obtain ⟨format, hformat, hlayouts, hwidth⟩ := h
  unfold byteStrideFrom HasByteStride
  rw [hformat]
  by_cases heq : format = nv12_10
  · have hw := hwidth heq
    cases hr : b.width with
    | error err =>
      rw [hr] at hw
      cases hw
    | ok width => simp [Except.toOption, heq]
  · have hf := firstLayout_isSome (hlayouts heq)
    simp [Except.toOption, heq, hf]

/-! ## When they report -/

theorem reports_ok {err : Status} {out value : Option (BitVec 32)} :
    Reports (.ok (err, out)) value ↔ (err = OK → out.isSome ∧ out = value) := by
  constructor
  · rintro ⟨-, -, h⟩ rfl
    exact h out rfl
  · intro h
    refine ⟨nofun, nofun, fun out' he => ?_⟩
    cases he
    exact h rfl

theorem reports_getByteStride (s : Nat → Answer) :
    Reports (result (getByteStride nv12_10) s) (byteStrideFrom nv12_10 (s 0) (s 1)) ↔
      HasByteStride nv12_10 (s 0) (s 1) := by
  obtain ⟨s', heq, -⟩ := @getByteStride_eq nv12_10 s
  have hr : result (getByteStride nv12_10) s = .ok (byteStrideOut nv12_10 (s 0) (s 1)) := by
    unfold result
    rw [heq]
    rfl
  rw [hr, reports_ok, byteStrideOut_fst, byteStrideOut_snd]
  constructor
  · intro h format hformat hne hempty
    have hans : StrideAnswered nv12_10 (s 0) (s 1) :=
      ⟨format, hformat, fun _ => by rw [hempty]; rfl, fun he => absurd he hne⟩
    exact (byteStrideFrom_isSome hans).1 (h hans).1 format hformat hne hempty
  · exact fun h hans => ⟨(byteStrideFrom_isSome hans).2 h, rfl⟩

theorem reports_getBitPerPixel (s : Nat → Answer) :
    Reports (result getBitPerPixel s) (bitPerPixelFrom (s 1)) ↔
      ((s 0).formatRequested.isOk → (s 1).planeLayouts ≠ .ok []) := by
  obtain ⟨s', heq⟩ := getBitPerPixel_eq s
  have hr : result getBitPerPixel s = .ok (bitPerPixelOut (s 0) (s 1)) := by
    unfold result
    rw [heq]
    rfl
  have hsome : (bitPerPixelFrom (s 1)).isSome = (firstLayout (s 1)).isSome := Option.isSome_map
  rw [hr, reports_ok, bitPerPixelOut_fst]
  constructor
  · intro h hformat hempty
    have hok : (s 1).planeLayouts.isOk := by rw [hempty]; rfl
    have hout := (h ⟨hformat, hok⟩).1
    rw [bitPerPixelOut_snd hformat, hsome, firstLayout_isSome hok] at hout
    exact hout hempty
  · rintro h ⟨hformat, hok⟩
    rw [bitPerPixelOut_snd hformat, hsome, firstLayout_isSome hok]
    exact ⟨h hformat, rfl⟩

theorem result_getShareFd (s : Nat → Answer) :
    result getShareFd s = shareFd (s 0).planeFds := by
  unfold result getShareFd
  rw [query_bind]
  cases shareFd (s 0).planeFds <;> rfl

theorem reports_getShareFd (s : Nat → Answer) :
    Reports (result getShareFd s) (fdFrom (s 0)) ↔ (s 0).planeFds ≠ .ok [] := by
  rw [result_getShareFd]
  unfold shareFd fdFrom
  cases (s 0).planeFds with
  | error err => exact ⟨fun _ => nofun, fun _ => reports_ok.2 fun h => absurd h err.2⟩
  | ok fds =>
    cases fds with
    | nil => exact ⟨fun h => absurd rfl h.indexes, fun h => absurd rfl h⟩
    | cons fd fds => exact ⟨fun _ => nofun, fun _ => reports_ok.2 fun _ => ⟨rfl, rfl⟩⟩

/-! ## The pixel stride -/

theorem result_getPixelStride_of_error (h : ¬ PixelStrideAnswered nv12_10 s) :
    ∃ err, err ≠ OK ∧ result (getPixelStride nv12_10) s = .ok (err, none) := by
  rw [result_getPixelStride]
  by_cases h0 : StrideAnswered nv12_10 (s 0) (s 1)
  · have hbits : (bitPerPixelOut (s 2) (s 3)).1 ≠ OK :=
      fun h1 => h ⟨h0, (bitPerPixelOut_fst _ _).1 h1⟩
    rw [if_neg (not_not.2 ((byteStrideOut_fst _ _).2 h0)), if_pos hbits]
    exact ⟨_, hbits, rfl⟩
  · have hbyte := mt (byteStrideOut_fst _ _).1 h0
    rw [if_pos hbyte]
    exact ⟨_, hbyte, rfl⟩

theorem result_getPixelStride_of_answered (h : PixelStrideAnswered nv12_10 s) :
    result (getPixelStride nv12_10) s =
      (pixelStrideOf ((byteStrideFrom nv12_10 (s 0) (s 1)).getD 0)
        ((bitPerPixelFrom (s 3)).getD 0)).map fun pixelStride => (OK, some pixelStride) := by
  obtain ⟨h0, h1⟩ := h
  rw [result_getPixelStride, if_neg (not_not.2 ((byteStrideOut_fst _ _).2 h0)),
    if_neg (not_not.2 ((bitPerPixelOut_fst _ _).2 h1)), byteStrideOut_snd, bitPerPixelOut_snd h1.1]

theorem pixelStrideOf_zero_left {bitPerPixel : BitVec 32} (h : bitPerPixel ≠ 0) :
    pixelStrideOf 0 bitPerPixel = .ok 0 := by
  unfold pixelStrideOf
  rw [if_neg h]
  simp [InInt]

/-- A divisor other than 0: the quotient, or a value outside of `int`. -/
theorem pixelStrideOf_ne_zero {byteStride bitPerPixel : BitVec 32} (h : bitPerPixel ≠ 0) :
    pixelStrideOf byteStride bitPerPixel = .error .overflow ∨
      ∃ v, pixelStrideOf byteStride bitPerPixel = .ok v := by
  unfold pixelStrideOf
  rw [if_neg h]
  simp only
  split
  · exact .inl rfl
  split
  · exact .inl rfl
  · exact .inr ⟨_, rfl⟩

/-- A division by a positive number stays in `int`. -/
theorem inInt_tdiv {x y : Int} (hx : InInt x) (hy : 0 < y) : InInt (x.tdiv y) := by
  unfold InInt at *
  rcases Int.le_total 0 x with h0 | h0
  · have hq := Int.tdiv_nonneg h0 hy.le
    have hle := Int.tdiv_le_self y h0
    omega
  · obtain ⟨n, rfl⟩ : ∃ n, x = -n := ⟨-x, (Int.neg_neg x).symm⟩
    have hn : 0 ≤ n := by omega
    have hq := Int.tdiv_nonneg hn hy.le
    have hle := Int.tdiv_le_self y hn
    rw [Int.neg_tdiv]
    omega

theorem pixelStrideOf_pos {byteStride bitPerPixel : BitVec 32} (h : 0 < bitPerPixel.toInt)
    (hin : InInt (byteStride.toInt * 8)) : ∃ v, pixelStrideOf byteStride bitPerPixel = .ok v ∧
      v.toInt = (byteStride.toInt * 8).tdiv bitPerPixel.toInt := by
  have hne : bitPerPixel ≠ 0 := by
    rintro rfl
    exact absurd h (by decide)
  have hq := inInt_tdiv hin h
  unfold pixelStrideOf
  rw [if_neg hne, if_neg (not_not.2 hin)]
  simp only
  rw [if_neg (not_not.2 hq)]
  refine ⟨_, rfl, ?_⟩
  unfold InInt at hq
  rw [BitVec.toInt_ofInt]
  exact Int.bmod_eq_of_le hq.1 hq.2

theorem inInt_of_pixelStrideOf {byteStride bitPerPixel v : BitVec 32}
    (h : pixelStrideOf byteStride bitPerPixel = .ok v) : InInt (byteStride.toInt * 8) := by
  by_contra hin
  unfold pixelStrideOf at h
  rw [if_pos hin] at h
  split at h <;> cases h

theorem reports_getPixelStride (s : Nat → Answer) :
    Reports (result (getPixelStride nv12_10) s) (pixelStrideFrom nv12_10 s) ↔
      (PixelStrideAnswered nv12_10 s → HasByteStride nv12_10 (s 0) (s 1) ∧
        ∃ bitPerPixel, bitPerPixelFrom (s 3) = some bitPerPixel ∧ bitPerPixel ≠ 0) := by
  by_cases hans : PixelStrideAnswered nv12_10 s
  · rw [result_getPixelStride_of_answered hans, forall_prop_of_true hans,
      ← byteStrideFrom_isSome hans.1]
    unfold pixelStrideFrom
    cases hbits : bitPerPixelFrom (s 3) with
    | none => exact ⟨fun h => absurd rfl h.divides, fun ⟨_, _, h, _⟩ => nomatch h⟩
    | some bitPerPixel =>
      simp only [Option.getD_some, Option.some.injEq, exists_eq_left']
      by_cases hzero : bitPerPixel = 0
      · rw [hzero]
        exact ⟨fun h => absurd rfl h.divides, fun h => absurd rfl h.2⟩
      · cases hbyte : byteStrideFrom nv12_10 (s 0) (s 1) with
        | none =>
          rw [Option.getD_none, pixelStrideOf_zero_left hzero]
          exact ⟨fun h => absurd (reports_ok.1 h rfl).2 nofun, fun h => absurd h.1 nofun⟩
        | some byteStride =>
          refine ⟨fun _ => ⟨rfl, hzero⟩, fun _ => ?_⟩
          show Reports ((pixelStrideOf byteStride bitPerPixel).map _)
            (pixelStrideOf byteStride bitPerPixel).toOption
          obtain h | ⟨v, h⟩ := @pixelStrideOf_ne_zero byteStride _ hzero
          · rw [h]
            exact ⟨nofun, nofun, nofun⟩
          · rw [h]
            exact reports_ok.2 fun _ => ⟨rfl, rfl⟩
  · obtain ⟨err, herr, hr⟩ := result_getPixelStride_of_error hans
    rw [hr, reports_ok]
    exact ⟨fun _ h => absurd h hans, fun _ h => absurd h herr⟩

theorem strideReports_iff (s : Nat → Answer) : StrideReports nv12_10 s ↔
    (PixelStrideAnswered nv12_10 s → ∃ byteStride bitPerPixel,
      byteStrideFrom nv12_10 (s 0) (s 1) = some byteStride ∧
      bitPerPixelFrom (s 3) = some bitPerPixel ∧ 0 < bitPerPixel.toInt ∧
      InInt (byteStride.toInt * 8)) := by
  unfold StrideReports
  rw [result_hwcGetHandleStride]
  by_cases hans : PixelStrideAnswered nv12_10 s
  · rw [result_getPixelStride_of_answered hans, forall_prop_of_true hans]
    constructor
    · rintro ⟨v, hv, ⟨-, err, out, hr, herr⟩ | ⟨byteStride, bitPerPixel, hbyte, hbits, hpos, -⟩⟩
      · generalize pixelStrideOf _ _ = r at hr
        cases r with
        | error f => cases hr
        | ok p =>
          cases hr
          exact absurd rfl herr
      · refine ⟨byteStride, bitPerPixel, hbyte, hbits, hpos, ?_⟩
        rw [hbyte, hbits, Option.getD_some, Option.getD_some] at hv
        cases hr : pixelStrideOf byteStride bitPerPixel with
        | error f =>
          rw [hr] at hv
          cases hv
        | ok p => exact inInt_of_pixelStrideOf hr
    · rintro ⟨byteStride, bitPerPixel, hbyte, hbits, hpos, hin⟩
      obtain ⟨v, hv, hq⟩ := pixelStrideOf_pos hpos hin
      refine ⟨v, ?_, .inr ⟨byteStride, bitPerPixel, hbyte, hbits, hpos, hq⟩⟩
      rw [hbyte, hbits, Option.getD_some, Option.getD_some, hv]
      rfl
  · obtain ⟨err, herr, hr⟩ := result_getPixelStride_of_error hans
    rw [hr]
    refine ⟨fun _ h => absurd h hans, fun _ => ⟨-1#32, ?_, .inl ⟨rfl, err, none, rfl, herr⟩⟩⟩
    exact if_pos herr

/-- The answers with which the getters report, each on the answers to come. -/
theorem getters_report_iff (nv12_10 : BitVec 32) (s : Nat → Answer) :
    (Reports (result (getByteStride nv12_10) s) (byteStrideFrom nv12_10 (s 0) (s 1)) ↔
      HasByteStride nv12_10 (s 0) (s 1)) ∧
    (Reports (result getBitPerPixel s) (bitPerPixelFrom (s 1)) ↔
      ((s 0).formatRequested.isOk → (s 1).planeLayouts ≠ .ok [])) ∧
    (Reports (result (getPixelStride nv12_10) s) (pixelStrideFrom nv12_10 s) ↔
      (PixelStrideAnswered nv12_10 s → HasByteStride nv12_10 (s 0) (s 1) ∧
        ∃ bitPerPixel, bitPerPixelFrom (s 3) = some bitPerPixel ∧ bitPerPixel ≠ 0)) ∧
    (Reports (result getShareFd s) (fdFrom (s 0)) ↔ (s 0).planeFds ≠ .ok []) ∧
    (StrideReports nv12_10 s ↔ (PixelStrideAnswered nv12_10 s → ∃ byteStride bitPerPixel,
      byteStrideFrom nv12_10 (s 0) (s 1) = some byteStride ∧
      bitPerPixelFrom (s 3) = some bitPerPixel ∧ 0 < bitPerPixel.toInt ∧
      InInt (byteStride.toInt * 8))) :=
  ⟨reports_getByteStride s, reports_getBitPerPixel s, reports_getPixelStride s,
    reports_getShareFd s, strideReports_iff s⟩

/-- A plane of 32 bits a pixel, with rows of 7680 bytes. -/
example : result (hwcGetHandleStride 0x17) (fun _ =>
    { formatRequested := .ok 1, width := .ok 1920, planeLayouts := .ok [⟨32, 7680⟩],
      planeFds := .ok [] }) = .ok 1920 := rfl

/-- A service that answers each query, with an empty list of layouts. -/
def noLayouts (_ : Nat) : Answer where
  formatRequested := .ok 1
  width := .ok 64
  planeLayouts := .ok []
  planeFds := .ok [5]

/-- `get_byte_stride` returns `OK` without a store, and `hwc_get_handle_stride` divides by zero. -/
theorem getByteStride_noLayouts :
    result (getByteStride 0x17) noLayouts = .ok (OK, none) ∧
    ¬ Reports (result (getByteStride 0x17) noLayouts)
      (byteStrideFrom 0x17 (noLayouts 0) (noLayouts 1)) ∧
    result (hwcGetHandleStride 0x17) noLayouts = .error .divByZero ∧
    ¬ StrideReports 0x17 noLayouts := by
  refine ⟨rfl, fun h => ?_, rfl, ?_⟩
  · have hout := (h.assigns none rfl).1
    cases hout
  · rintro ⟨v, hv, -⟩
    cases hv

end Nv12

end Gralloc4

end EinkHwc
