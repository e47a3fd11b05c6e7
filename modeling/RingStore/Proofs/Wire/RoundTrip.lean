import RingStore.Journal.Record
import RingStore.Store
import Mathlib.Tactic.Common

/-!
# Reading back what was written

Each decoder, run on the encoding of a value with any bytes behind it, gives the value and leaves
these bytes. Lengths are written in eight bytes, so the laws for texts and lists of bytes hold up to
`2 ^ 64` bytes. The last two theorems are the ones that files depend on: a record of the journal and
a pair of the store are read back from the bytes that were written for them.
-/

namespace RingStore

/-- Only its own bytes are read as a text. -/
theorem Text.ofBytes?_eq_some {bs : Bytes} {s : String} :
    Text.ofBytes? bs = some s ↔ bs = Text.bytes s := by
  constructor
  · intro h
    unfold Text.ofBytes? String.fromUTF8? at h
    split at h
    · obtain rfl := Option.some.inj h
      simp [Text.bytes, String.fromUTF8]
    · exact absurd h (by simp)
  · rintro rfl
    exact Text.ofBytes?_bytes s

namespace Wire

variable {α β : Type}

@[simp] theorem length_number (width n : Nat) : (number width n).length = width := by
  induction width generalizing n with
  | zero => rfl
  | succ width ih => simp [number, ih]

/-- A number that fits its width is read as itself. -/
theorem ofNumber_number (width n : Nat) (h : n < Nat.pow 256 width) :
    ofNumber (number width n) = n := by
  induction width generalizing n with
  | zero =>
    have : n = 0 := by simpa using h
    simp [number, ofNumber, this]
  | succ width ih =>
    have hp : Nat.pow 256 (width + 1) = Nat.pow 256 width * 256 := rfl
    have hlt : n / 256 < Nat.pow 256 width := by
      rw [hp] at h
      exact Nat.div_lt_of_lt_mul (by rw [Nat.mul_comm]; exact h)
    have hb : (UInt8.ofNat n).toNat = n % 256 := by simp
    rw [number, ofNumber, ih _ hlt, hb]
    omega

/-- The decoder gives `a` back from the bytes `bs`, whatever stands behind them. -/
def Reads (x : Decoder α) (bs : Bytes) (a : α) : Prop :=
  ∀ rest, x.run (bs ++ rest) = .ok (a, rest)

theorem Reads.pure (a : α) : Reads (pure a) [] a := fun _ => rfl

/-- What is written one after the other is read one after the other. -/
theorem Reads.bind {x : Decoder α} {f : α → Decoder β} {bs cs : Bytes} {a : α} {b : β}
    (hx : Reads x bs a) (hf : Reads (f a) cs b) : Reads (x >>= f) (bs ++ cs) b := by
  intro rest
  rw [StateT.run_bind, List.append_assoc, hx]
  exact hf rest

/-- What follows from the answer may read nothing more. -/
theorem Reads.bind_last {x : Decoder α} {f : α → Decoder β} {bs : Bytes} {a : α} {b : β}
    (hx : Reads x bs a) (hf : Reads (f a) [] b) : Reads (x >>= f) bs b := by
  have h := hx.bind hf
  rwa [List.append_nil] at h

theorem Reads.map {x : Decoder α} {bs : Bytes} {a : α} (hx : Reads x bs a) (f : α → β) :
    Reads (x >>= fun a => Pure.pure (f a)) bs (f a) := hx.bind_last (Reads.pure (f a))

/-- As many bytes are taken as there are. -/
theorem reads_takeBytes (bs : Bytes) (f : CodecFault) : Reads (takeBytes bs.length f) bs bs := by
  intro rest
  simp [takeBytes, StateT.run]

/-- A number that fits its width is taken off the bytes. -/
theorem reads_takeNumber {width n : Nat} (h : n < Nat.pow 256 width) :
    Reads (takeNumber width) (number width n) n := by
  have hb := reads_takeBytes (number width n) .endOfInput
  rw [length_number] at hb
  have hn := hb.map ofNumber
  rwa [ofNumber_number width n h] at hn

/-- A block is taken off the bytes, if its length fits eight of them. -/
theorem reads_takeBlock {bs : Bytes} (h : bs.length < Nat.pow 256 8) :
    Reads takeBlock (block bs) bs :=
  (reads_takeNumber h).bind (reads_takeBytes bs .endOfInput)

/-- A text is taken off the bytes, if its length fits eight of them. -/
theorem reads_takeText {s : String} (h : (Text.bytes s).length < Nat.pow 256 8) :
    Reads takeText (text s) s := by
  refine (reads_takeNumber h).bind ((reads_takeBytes (Text.bytes s) .textTooShort).bind_last ?_)
  rw [Text.ofBytes?_bytes]
  exact Reads.pure s

/-- One of several alternatives is taken off the bytes. -/
theorem reads_takeAlternative {i count : Nat} (h : i < count) (hc : count < Nat.pow 256 4) :
    Reads (takeAlternative count) (alternative i) ⟨i, h⟩ := by
  refine (reads_takeNumber (Nat.lt_trans h hc)).bind_last ?_
  rw [dif_pos h]
  exact Reads.pure _

/-- A value is read back from its encoding. -/
theorem Reads.ofBytes [Wire α] {a : α} (h : Reads decode (encode a) a) :
    Wire.ofBytes (encode a) = .ok a := by
  have hr := h []
  rw [List.append_nil] at hr
  simp [Wire.ofBytes, hr, Except.map]

end Wire

/-- The size of a text is the number of its bytes. -/
theorem Text.length_bytes (s : String) : (Text.bytes s).length = Text.size s := by
  simp [Text.bytes, Text.size]

open Wire in
/-- A pair of the store is read back from its file. -/
theorem StoredPair.ofBytes_encode (e : StoredPair) (hk : Text.size e.key < Nat.pow 256 8)
    (hv : Text.size e.value < Nat.pow 256 8) : Wire.ofBytes (Wire.encode e) = .ok e := by
  apply Reads.ofBytes
  rw [← Text.length_bytes] at hk hv
  exact (reads_takeText hk).bind ((reads_takeText hv).map (StoredPair.mk e.key))

/-- The kind with a number. -/
def Record.Kind.ofNumber : Fin 4 → Record.Kind
  | 0 => .put
  | 1 => .del
  | 2 => .commit
  | 3 => .abort

theorem Record.Kind.number_lt (k : Record.Kind) : k.number < 4 := by cases k <;> decide

theorem Record.Kind.ofNumber_number (k : Record.Kind) : ofNumber ⟨k.number, k.number_lt⟩ = k := by
  cases k <;> rfl

/-- A record is read as its kind, its length and its data. -/
theorem Record.decode_eq : (Wire.decode : Decoder Record) = (do
    let i ← Wire.takeAlternative 4
    let length ← Wire.takeNumber 4
    return ⟨Record.Kind.ofNumber i, UInt32.ofNat length, ← Wire.takeBlock⟩) := rfl

open Wire in
/-- A record of the journal is read back from its file. -/
theorem Record.ofBytes_encode (r : Record) (h : r.data.length < Nat.pow 256 8) :
    Wire.ofBytes (Wire.encode r) = .ok r := by
  apply Reads.ofBytes
  have hlen : r.length.toNat < Nat.pow 256 4 := by
    rw [show Nat.pow 256 4 = 2 ^ 32 from rfl]
    exact r.length.toNat_lt
  rw [Record.decode_eq]
  refine Eq.mp (congrArg (fun bs => Reads _ bs r) (List.append_assoc _ _ _).symm)
    ((reads_takeAlternative r.kind.number_lt (by decide)).bind ?_)
  rw [Record.Kind.ofNumber_number]
  refine (reads_takeNumber hlen).bind ?_
  rw [UInt32.ofNat_toNat]
  exact (reads_takeBlock h).map (Record.mk r.kind r.length)

end RingStore
