import Mihomo.Net.Slice

/-!
# Panics and byte readers

A decoder reads from the front of a byte stream. It ends with a value and the rest of the stream, with
an error of the stream, with an error of its own, or with a panic of the runtime.
-/

namespace Mihomo.Go

inductive Panic where
  | indexOutOfRange
  | sliceBounds
  | divideByZero
  | nilDereference
  deriving DecidableEq, Repr

inductive Stop where
  | panic (p : Panic)
  | eof
  | unexpectedEOF
  | invalid (text : Str)
  deriving DecidableEq, Repr

abbrev Read := StateT Str (Except Stop)

namespace Read

variable {α β : Type}

def fail (e : Stop) : Read α := fun _ => .error e

/-- `io.ByteReader`. -/
def byte : Read UInt8
  | [] => .error .eof
  | b :: s => .ok (b, s)

/-- `io.ReadFull` into a buffer of `n` bytes. -/
def full (n : Nat) : Read Str := fun s =>
  if n ≤ s.length then .ok (s.take n, s.drop n)
  else if s = [] then .error .eof
  else .error .unexpectedEOF

/-- `binary.Read` of a big-endian number of `n` bytes. -/
def number (n : Nat) : Read Nat := do
  let s ← full n
  return Net.ofBytesBE s

def uint8 : Read UInt8 := return UInt8.ofNat (← number 1)

def uint16 : Read UInt16 := return UInt16.ofNat (← number 2)

def uint32 : Read UInt32 := return UInt32.ofNat (← number 4)

variable {f : α → Read β} {c : Read α}

theorem bind_ok {s t : Str} {a : α} (h : c s = .ok (a, t)) : (c >>= f) s = f a t := by
  change (c s >>= fun p => f p.1 p.2) = _
  rw [h]
  rfl

theorem bind_error {s : Str} {e : Stop} (h : c s = .error e) : (c >>= f) s = .error e := by
  change (c s >>= fun p => f p.1 p.2) = _
  rw [h]
  rfl

theorem full_append {b : Str} (s : Str) : full b.length (b ++ s) = .ok (b, s) := by
  have hle : b.length ≤ (b ++ s).length := by simp
  rw [full, if_pos hle, List.take_left, List.drop_left]

theorem number_append {n k : Nat} (hk : k < 256 ^ n) (s : Str) :
    number n (Net.bytesBE n k ++ s) = .ok (k, s) := by
  have hfull := full_append (b := Net.bytesBE n k) s
  rw [Net.bytesBE_length] at hfull
  rw [number, bind_ok hfull, Net.ofBytesBE_bytesBE, Nat.mod_eq_of_lt hk]
  rfl

theorem uint8_append (k : UInt8) (s : Str) : uint8 (Net.bytesBE 1 k.toNat ++ s) = .ok (k, s) := by
  rw [uint8, bind_ok (number_append (by exact k.toNat_lt) s), UInt8.ofNat_toNat]
  rfl

theorem uint16_append (k : UInt16) (s : Str) : uint16 (Net.bytesBE 2 k.toNat ++ s) = .ok (k, s) := by
  rw [uint16, bind_ok (number_append (by exact k.toNat_lt) s), UInt16.ofNat_toNat]
  rfl

theorem uint32_append (k : UInt32) (s : Str) : uint32 (Net.bytesBE 4 k.toNat ++ s) = .ok (k, s) := by
  rw [uint32, bind_ok (number_append (by exact k.toNat_lt) s), UInt32.ofNat_toNat]
  rfl

def Safe (c : Read α) : Prop := ∀ s p, c s ≠ .error (.panic p)

theorem Safe.pure (a : α) : Safe (Pure.pure a : Read α) := by
  intro s p h
  cases h

theorem Safe.bind (hc : Safe c) (hf : ∀ a, Safe (f a)) : Safe (c >>= f) := by
  intro s p h
  cases hs : c s with
  | error e =>
    rw [bind_error hs, Except.error.injEq] at h
    exact hc s p (h ▸ hs)
  | ok r =>
    rw [bind_ok hs] at h
    exact hf r.1 r.2 p h

theorem safe_full (n : Nat) : Safe (full n) := by
  intro s p h
  unfold full at h
  split_ifs at h <;> cases h

theorem safe_number (n : Nat) : Safe (number n) := (safe_full n).bind fun _ => .pure _

theorem safe_uint16 : Safe uint16 := (safe_number 2).bind fun _ => .pure _

end Read

end Mihomo.Go
