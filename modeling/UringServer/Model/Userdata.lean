import Mathlib.Data.BitVec

/-! # Request tags

Every submission carries 64 bits that the kernel returns unchanged in its completions. The program
packs a descriptor or buffer id and an operation code into them through a union of a struct with
one 64-bit value. The encoder takes the descriptor as 16 bits while the struct keeps 32 for it;
the three bytes after the operation code are padding, of which C promises nothing.
-/

namespace UringServer

/-- `enum opcode`. -/
inductive Opcode where
  | listen
  | accept
  | recvmsg
  | write
  | writeFixed
  | sendmsg
deriving DecidableEq, Repr

namespace Opcode

/-- The value of the enumerator, as stored in the operation byte. -/
def code : Opcode → BitVec 8
  | listen => 1
  | accept => 2
  | recvmsg => 3
  | write => 4
  | writeFixed => 5
  | sendmsg => 6

/-- The enumerator an operation byte stands for, if any. -/
def ofCode? (byte : BitVec 8) : Option Opcode :=
  [listen, accept, recvmsg, write, writeFixed, sendmsg].find? fun op => op.code == byte

@[simp] theorem ofCode?_code (op : Opcode) : ofCode? op.code = some op := by
  cases op <;> rfl

end Opcode

/-- `struct userdata`, read through its 64-bit member. -/
structure Userdata where
  val : BitVec 64
deriving DecidableEq, Repr

/-- The 32 low bits: `fd` of the struct. -/
def Userdata.fd (ud : Userdata) : BitVec 32 := ud.val.extractLsb' 0 32

/-- The byte after `fd`: `op` of the struct. -/
def Userdata.op (ud : Userdata) : BitVec 8 := ud.val.extractLsb' 32 8

/-- `encode_userdata`: `fd` was narrowed to 16 bits by the call, `pad` is what the padding holds. -/
def encodeUserdata (pad : BitVec 24) (fd : BitVec 16) (op : BitVec 8) : BitVec 64 :=
  fd.setWidth 64 ||| op.setWidth 64 <<< 32 ||| pad.setWidth 64 <<< 40

/-- `userdata_decode`, on the `user_data` of a completion. -/
def userdataDecode (userData : BitVec 64) : Userdata := ⟨userData⟩

/-- The decoded descriptor is the encoded one, zero extended, whatever the padding holds. -/
@[simp] theorem userdataDecode_encode_fd (pad : BitVec 24) (fd : BitVec 16) (op : BitVec 8) :
    (userdataDecode (encodeUserdata pad fd op)).fd = fd.setWidth 32 := by
  apply BitVec.eq_of_getLsbD_eq
  intro i low
  have beforeOp : i < 32 := low
  have beforePad : i < 40 := by omega
  simp [userdataDecode, Userdata.fd, encodeUserdata, beforeOp, beforePad, show i < 64 by omega]

@[simp] theorem userdataDecode_encode_op (pad : BitVec 24) (fd : BitVec 16) (op : BitVec 8) :
    (userdataDecode (encodeUserdata pad fd op)).op = op := by
  apply BitVec.eq_of_getLsbD_eq
  intro i low
  have pastFd : fd.getLsbD (32 + i) = false := BitVec.getLsbD_of_ge _ _ (by omega)
  simp [userdataDecode, Userdata.op, encodeUserdata, pastFd, low, show 32 + i < 40 by omega,
    show 32 + i < 64 by omega]

/-- A `uint16_t` argument made from an `int`: the value modulo `2 ^ 16`. -/
theorem setWidth_ofInt_toNat (fd : ℤ) :
    (((BitVec.ofInt 16 fd).setWidth 32).toNat : ℤ) = fd % 2 ^ 16 := by
  have bound : (BitVec.ofInt 16 fd).toNat < 2 ^ 16 := (BitVec.ofInt 16 fd).isLt
  rw [BitVec.toNat_setWidth_of_le (by decide), BitVec.toNat_ofInt]
  omega

end UringServer
