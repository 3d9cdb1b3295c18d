import UringServer.Model.Rexe
import UringServer.Proofs.FreeList
import UringServer.Proofs.StartupCalls

/-! # What the reader in Rust prints

A fresh ring has an entry and a fresh pool a buffer, so the unchecked pointers of the start-up are never
null, and the read is asked for with a buffer that is registered under the index it names. What it
stores is printed as it was read, if it is text at all. A line that is longer than the buffer is cut at
a byte, not at a character.
-/

namespace UringServer

open Fallible

/-- The read of a process whose `appctx_init` returns: into the last of the 16 log buffers. -/
def stdinRead : ReadFixed := ⟨0, (Block.bufpool.carve loggingBufsize 15).iovBase, loggingBufsize, 0, 15⟩

/-- The text that is read, if any. -/
def ReadAnswer.text : ReadAnswer → Except RexeStop String
  | .missing => .error .nullCqe
  | .failed _ => .error .invalidSlice
  | .stored data => (String.fromUTF8? data.toByteArray).elim (.error .invalidUtf8) .ok

/-- Bytes survive being stored as characters. -/
theorem byteOfChar_charOfByte (byte : UInt8) : byteOfChar (charOfByte byte) = byte := by
  have small : byte.toNat < 256 := byte.toNat_lt
  have code : (Char.ofNat byte.toNat).toNat = byte.toNat := by
    rw [Char.ofNat, dif_pos (.inl (by omega))]
    rfl
  rw [byteOfChar, charOfByte, code, UInt8.ofNat_toNat]

/-- What is read back is what was stored. -/
private theorem rexeText_stored (memory : Memory) (logBuf : Ptr) (data : List UInt8) :
    rexeText (memory.write logBuf (data.map charOfByte)) logBuf data.length =
      (ReadAnswer.stored data).text := by
  have back := memory.read_write_self logBuf (data.map charOfByte) []
  rw [List.append_nil, List.length_map] at back
  have bytes : (data.map charOfByte).map byteOfChar = data := by
    rw [List.map_map, Function.comp_def]
    simp only [byteOfChar_charOfByte, List.map_id']
  have positive : ¬ (data.length : ℤ) < 0 := by omega
  rw [rexeText, if_neg positive, Int.toNat_natCast, back, bytes, ReadAnswer.text]
  dsimp only
  cases String.fromUTF8? data.toByteArray <;> rfl

section Setup

variable {setup : Setup} {appctx : Appctx}

/-- The start-up of the reader finds an entry and a buffer. -/
private theorem rexeRead_of_init (init : appctxInit setup mainBufringParams 16 = .ok appctx) :
    ∃ bufpool, rexeRead setup = .ok ({ appctx with bufpool := bufpool }, stdinRead) := by
  have made := init
  simp only [appctxInit, bind_ok_iff, assertPositive_ok_iff, pure_ok_iff, exists_const] at made
  obtain ⟨-, pool, poolMade, conn, -, spare, -, rfl⟩ := made
  have list : FreeList loggingBufsize 16 pool (15 :: (List.range 15).reverse) :=
    bufpoolInit_freeList (by decide) poolMade
  obtain ⟨-, bufpool, popped, iovecs, -⟩ := list.pop_cons
  obtain ⟨bid, iov⟩ := list.nodes 15 (by decide)
  have slot : ioUringGetSqe ioUringQueueInit = some ⟨ioUringQueueInit, by decide⟩ := rfl
  have carved := list.carved 15 (by decide)
  refine ⟨bufpool, ?_⟩
  simp only [rexeRead, rexeInit, init, slot, popped, deref, bind, Except.bind, pure, Except.pure, iovecs, iov,
    bid, carved, stdinRead]

private theorem rexeRead_of_stop {stop : Stop} (init : appctxInit setup mainBufringParams 16 = .error stop) :
    rexeRead setup = .error (.library stop) := by
  rw [rexeRead, rexeInit, init]
  rfl

end Setup

/-- After the start-up nothing but the answer to the read decides. -/
theorem rexeMain_of_init {setup : Setup} {appctx : Appctx} {answer : ReadFixed → ReadAnswer}
    (init : appctxInit setup mainBufringParams 16 = .ok appctx)
    (negative : ∀ res, answer stdinRead = .failed res → res < 0) :
    rexeMain setup answer = (answer stdinRead).text.map userEntered := by
  obtain ⟨bufpool, ready⟩ := rexeRead_of_init init
  rw [rexeMain, ready]
  simp only [bind, Except.bind]
  cases answered : answer stdinRead with
  | missing => rfl
  | failed res =>
    dsimp only
    rw [rexeText, if_pos (negative res answered)]
    rfl
  | stored data =>
    dsimp only
    rw [rexeText_stored]
    cases (ReadAnswer.stored data).text <;> rfl

/-- Nothing but the answer to that read decides what a reader prints whose start-up passes its checks:
the bytes that were read, if they are text. -/
theorem rexe_prints_answer {setup : Setup} {answer : ReadFixed → ReadAnswer}
    (negative : ∀ read res, answer read = .failed res → res < 0) :
    rexeMain setup answer = (match appctxInit setup mainBufringParams 16 with
      | .ok _ => (answer stdinRead).text.map userEntered
      | .error stop => .error (.library stop)) := by
  cases init : appctxInit setup mainBufringParams 16 with
  | error stop =>
    rw [rexeMain, rexeRead_of_stop init]
    rfl
  | ok appctx => exact rexeMain_of_init init (negative stdinRead)

/-- A failed read is taken for a slice of that length. -/
theorem rexe_prints_answer_failed : ∃ answer, (∀ read res, answer read = .failed res → res < 0) ∧
    rexeMain calmSetup answer = .error .invalidSlice := by
  let answer (_ : ReadFixed) : ReadAnswer := .failed (-5)
  have negative (read : ReadFixed) (res : ℤ) (failed : answer read = .failed res) : res < 0 := by
    obtain rfl := ReadAnswer.failed.inj failed
    decide
  obtain ⟨appctx, init⟩ := (@appctxInit_returns_iff calmSetup mainBufringParams 16).mpr (by decide)
  have printed := @rexe_prints_answer calmSetup answer negative
  rw [init] at printed
  exact ⟨answer, negative, printed⟩

/-- Bytes are printed as the text that has them. -/
theorem text_ok_iff {data : List UInt8} {text : String} :
    (ReadAnswer.stored data).text = .ok text ↔ text.toByteArray = data.toByteArray := by
  rw [ReadAnswer.text, String.fromUTF8?]
  constructor
  · intro decoded
    split at decoded
    · cases decoded
      rfl
    · cases decoded
  · intro same
    rw [dif_pos (same ▸ text.isValidUTF8)]
    exact congrArg Except.ok (String.toByteArray_inj.mp same.symm)

private theorem take_toByteArray (bytes : ByteArray) (count : ℕ) :
    (bytes.data.toList.take count).toByteArray = bytes.extract 0 count := by
  apply ByteArray.ext
  rw [ByteArray.data_extract]
  apply Array.toList_inj.mp
  simp

/-- The first bytes of a line are a text if they are all of it, or if no character is cut apart. -/
private theorem bytes_to_cut_iff {line text : String} {count : ℕ} :
    text.toByteArray = line.toByteArray.extract 0 count ↔
      (line.utf8ByteSize ≤ count ∧ text = line) ∨
      (text.utf8ByteSize = count ∧ ∃ rest, line = text ++ rest) := by
  have whole (short : line.utf8ByteSize ≤ count) : line.toByteArray.extract 0 count = line.toByteArray := by
    have all := @ByteArray.extract_zero_max_size line.toByteArray count
    rwa [max_eq_left (String.size_toByteArray ▸ short)] at all
  constructor
  · intro same
    by_cases short : line.utf8ByteSize ≤ count
    · exact .inl ⟨short, String.toByteArray_inj.mp (same.trans (whole short))⟩
    · have valid : (⟨count⟩ : String.Pos.Raw).IsValid line := by
        refine String.Pos.Raw.isValid_iff_isValidUTF8_extract_zero.mpr ⟨?_, same ▸ text.isValidUTF8⟩
        exact Nat.le_of_lt (Nat.lt_of_not_le short)
      obtain ⟨front, rest, rfl, cut⟩ := String.Pos.Raw.isValid_iff_exists_append.mp valid
      have size : count = front.utf8ByteSize := congrArg String.Pos.Raw.byteIdx cut
      rw [String.toByteArray_append,
        ByteArray.extract_append_eq_left (size.trans String.size_toByteArray.symm)] at same
      obtain rfl := String.toByteArray_inj.mp same
      exact .inr ⟨size.symm, rest, rfl⟩
  · rintro (⟨short, rfl⟩ | ⟨rfl, rest, rfl⟩)
    · exact (whole short).symm
    · rw [String.toByteArray_append, ByteArray.extract_append_eq_left String.size_toByteArray.symm]

/-- A reader that is given the front of a line, as much as its buffer takes, prints a text exactly if that
is the whole line or one whole front of it of 256 bytes; otherwise a character was cut apart and the
reader ends in the conversion. -/
theorem rexe_prints_to_cut {setup : Setup} {answer : ReadFixed → ReadAnswer} {appctx : Appctx}
    {line : String} (init : appctxInit setup mainBufringParams 16 = .ok appctx)
    (stored : answer stdinRead = .stored (line.toByteArray.data.toList.take loggingBufsize)) :
    (∀ output, rexeMain setup answer = .ok output ↔ ∃ text, output = userEntered text ∧
      ((line.utf8ByteSize ≤ loggingBufsize ∧ text = line) ∨
      (text.utf8ByteSize = loggingBufsize ∧ ∃ rest, line = text ++ rest))) ∧
    ∀ stop, rexeMain setup answer = .error stop → stop = .invalidUtf8 := by
  have printed : rexeMain setup answer = (answer stdinRead).text.map userEntered :=
    rexeMain_of_init init fun res failed => by rw [stored] at failed; cases failed
  rw [stored] at printed
  rw [printed]
  refine ⟨fun output => ?_, fun stop stopped => ?_⟩
  · simp only [← bytes_to_cut_iff, ← take_toByteArray, ← text_ok_iff]
    cases (ReadAnswer.stored (line.toByteArray.data.toList.take loggingBufsize)).text with
    | error stop => simp [Except.map]
    | ok text => simp [Except.map, eq_comm]
  · rw [ReadAnswer.text] at stopped
    cases decoded : String.fromUTF8? (line.toByteArray.data.toList.take loggingBufsize).toByteArray with
    | none =>
      rw [decoded] at stopped
      cases stopped
      rfl
    | some text =>
      rw [decoded] at stopped
      cases stopped

/-- Of 300 characters the first 256 are printed. -/
theorem rexe_prints_to_cut_long : ∃ answer, ∃ text : String, text.utf8ByteSize = 256 ∧
    rexeMain calmSetup answer = .ok (userEntered text) := by
  let text := String.ofList (List.replicate 256 'a')
  let rest := String.ofList (List.replicate 44 'a')
  let answer (_ : ReadFixed) : ReadAnswer :=
    .stored ((text ++ rest).toByteArray.data.toList.take loggingBufsize)
  have size : text.utf8ByteSize = 256 := by decide +kernel
  obtain ⟨appctx, init⟩ := (@appctxInit_returns_iff calmSetup mainBufringParams 16).mpr (by decide)
  have prints := (@rexe_prints_to_cut calmSetup answer appctx (text ++ rest) init rfl).1
    (userEntered text)
  exact ⟨answer, text, size, prints.mpr ⟨text, rfl, .inr ⟨size, rest, rfl⟩⟩⟩

end UringServer
