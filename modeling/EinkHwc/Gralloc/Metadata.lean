import EinkHwc.Mem.LittleEndian

/-!
# Buffer metadata

The getters of `gralloc4` ask the `IMapper` service for the metadata of a buffer. They return a
status and store their result through a pointer.

* A query is answered by the status of an error or by a decoded value (`Answer`, with one answer for
  each type that may be asked for). A getter runs on the sequence of answers to come.
* A status and the value stored, if any, are the result of a getter. Integers are words of the
  widths in the source; `size_t` has 64 bits. An `assert` is not part of a release build.
* `Fault` is what C++ leaves undefined, and the exception of `resize`.
* `decodeArmPlaneFds` is the decoder of this module, on the bytes of a reply (`getMetadata`). The
  others belong to the library of the service.
-/

namespace EinkHwc

namespace Gralloc4

/-- `android::status_t` -/
abbrev Status := Int

/-- `android::OK`, `android::NO_ERROR` -/
def OK : Status := 0

/-- A status other than `OK`. -/
abbrev Failure := {err : Status // err ≠ OK}

/-- `android::BAD_VALUE` -/
def BAD_VALUE : Failure := ⟨-22, by decide⟩

inductive Fault where
  /-- A read outside of the reply. -/
  | outOfRange
  /-- `std::length_error` -/
  | lengthError
  /-- An index into an empty list. -/
  | emptyIndex
  | divByZero
  /-- A result outside of `int`. -/
  | overflow
  /-- A local that was not stored to. -/
  | uninitialized
  deriving DecidableEq, Repr

/-! ## Replies as bytes -/

/-- `hidl_vec<uint8_t>`, whose size is a `uint32_t`. -/
structure HidlVec where
  data : List (BitVec 8)
  size_lt : data.length < 2 ^ 32

/-- `n` bytes from byte `p` on. -/
def memcpy (input : HidlVec) (p n : Nat) : Except Fault (List (BitVec 8)) :=
  if p + n ≤ input.data.length then .ok ((input.data.drop p).take n) else .error .outOfRange

/-- `max_size` of a vector of `int64_t` -/
def maxSize : Nat := 2 ^ 61 - 1

/-- `decodeArmPlaneFds`. The resized vector is zero where the copy leaves it. -/
def decodeArmPlaneFds (input : HidlVec) : Except Fault (Except Failure (List (BitVec 64))) := do
  let size := LittleEndian.word 64 (← memcpy input 0 8)
  if size.toInt < 0 then return .error BAD_VALUE
  else if maxSize < size.toNat then throw .lengthError
  else
    let tmp ← memcpy input 8 (8 * size.toNat % 2 ^ 64)
    return .ok (LittleEndian.words 64 8 size.toNat tmp)

/-- `get_metadata` for a reply of the service: an error, or bytes. -/
def getMetadata {τ : Type} (decode : HidlVec → Except Fault (Except Failure τ)) :
    Option HidlVec → Except Fault (Except Failure τ)
  | none => .ok (.error BAD_VALUE)
  | some metadata => decode metadata

/-! ## The getters -/

structure PlaneLayout where
  sampleIncrementInBits : BitVec 64
  strideInBytes : BitVec 64

/-- What `get_metadata` gives for one query, by its type. -/
structure Answer where
  formatRequested : Except Failure (BitVec 32)
  width : Except Failure (BitVec 64)
  planeLayouts : Except Failure (List PlaneLayout)
  planeFds : Except Failure (List (BitVec 64))

abbrev QueryM := StateT (Nat → Answer) (Except Fault)

/-- The next answer. -/
def query {τ : Type} (type : Answer → Except Failure τ) : QueryM (Except Failure τ) :=
  fun s => .ok (type (s 0), fun n => s (n + 1))

/-- `x[0]` -/
def front {τ : Type} : List τ → Except Fault τ
  | [] => .error .emptyIndex
  | x :: _ => .ok x

/-- A status, and what was stored. -/
abbrev Stored := Status × Option (BitVec 32)

def getFormatRequested : QueryM (Except Failure (BitVec 32)) := query Answer.formatRequested

def getWidth : QueryM (Except Failure (BitVec 64)) := query Answer.width

def getBitPerPixel : QueryM Stored := do
  match ← getFormatRequested with
  | .error err => return (err, none)
  | .ok _ =>
    match ← query Answer.planeLayouts with
    | .error err => return (err, none)
    | .ok layouts =>
      if layouts.length < 1 then return (OK, none)
      else
        let layout ← front layouts
        return (OK, some (layout.sampleIncrementInBits.setWidth 32))

section Nv12
-- `HAL_PIXEL_FORMAT_YCrCb_NV12_10`
variable (nv12_10 : BitVec 32)

def getByteStride : QueryM Stored := do
  match ← getFormatRequested with
  | .error err => return (err, none)
  | .ok format =>
    if format ≠ nv12_10 then
      match ← query Answer.planeLayouts with
      | .error err => return (err, none)
      | .ok layouts =>
        if layouts.length < 1 then return (OK, none)
        else
          let layout ← front layouts
          return (OK, some (layout.strideInBytes.setWidth 32))
    else
      match ← getWidth with
      | .error err => return (err, none)
      | .ok width => return (OK, some (width.setWidth 32))

def InInt (x : Int) : Prop := -2 ^ 31 ≤ x ∧ x < 2 ^ 31

instance (x : Int) : Decidable (InInt x) := inferInstanceAs (Decidable (_ ∧ _))

/-- `byte_stride * 8 / bit_per_pixel` -/
def pixelStrideOf (byteStride bitPerPixel : BitVec 32) : Except Fault (BitVec 32) :=
  if bitPerPixel = 0 then .error .divByZero
  else if ¬ InInt (byteStride.toInt * 8) then .error .overflow
  else
    let stride := (byteStride.toInt * 8).tdiv bitPerPixel.toInt
    if ¬ InInt stride then .error .overflow else .ok (BitVec.ofInt 32 stride)

/-- `get_pixel_stride`; its locals are 0 before they are stored to. -/
def getPixelStride : QueryM Stored := do
  let (err, byteStride) ← getByteStride nv12_10
  if err ≠ OK then return (err, none)
  else
    let (err, bitPerPixel) ← getBitPerPixel
    if err ≠ OK then return (err, none)
    else
      let pixelStride ← pixelStrideOf (byteStride.getD 0) (bitPerPixel.getD 0)
      return (err, some pixelStride)

/-- `hwc_get_handle_stride` -/
def hwcGetHandleStride : QueryM (BitVec 32) := do
  let (err, pixelStride) ← getPixelStride nv12_10
  if err ≠ OK then return -1#32
  else
    match pixelStride with
    | some pixelStride => return pixelStride
    | none => throw .uninitialized

end Nv12

/-- `get_share_fd`, with what `get_metadata` gave. -/
def shareFd (fds : Except Failure (List (BitVec 64))) : Except Fault Stored :=
  match fds with
  | .error err => return (err, none)
  | .ok fds => do
    let fd ← front fds
    return (OK, some (fd.setWidth 32))

def getShareFd : QueryM Stored := do
  shareFd (← query Answer.planeFds)

end Gralloc4

end EinkHwc
