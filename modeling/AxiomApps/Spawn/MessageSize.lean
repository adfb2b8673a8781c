import AxiomApps.Spawn.Execvpe

/-!
# The sizes of spawn messages

A spawn message is built in a buffer of `AXIOM_SPAWN_MAX_SIZE` bytes, a header and
`AXIOM_SPAWN_MAX_DATA_SIZE` bytes of data. `strlcpy` copies what fits of a string and returns
the length of the whole string, from which the size of the message is computed.
-/

namespace AxiomApps.Spawn

/-- What a call of `axiom_send_raw` or `axiom_send` is given: the size, and the data it takes
from the buffer and the memory after it. -/
structure Packet where
  size : ℤ
  data : List UInt8
  deriving DecidableEq

/-- `len`, an int. -/
def copyLen (str : CString) : ℤ := (BitVec.ofNat 32 str.length).toInt

def packet (p : Platform) (headerSize : ℕ) (beyond buf : List UInt8) (str : CString) : Packet where
  size := headerSize + copyLen str + 1
  data := (str.strlcpy buf p.dataSize ++ beyond).take (copyLen str + 1).toNat

/-- All four places where a string is sent compute the size in the same way. -/
def packets (p : Platform) (headerSize : ℕ) (beyond : List UInt8) :
    List UInt8 → List CString → List Packet
  | _, [] => []
  | buf, str :: strs =>
      packet p headerSize beyond buf str ::
        packets p headerSize beyond (str.strlcpy buf p.dataSize) strs

/-- The strings of a command, in the order they are sent. -/
def Command.strings (cmd : Command) : List CString :=
  cmd.filename :: (cmd.argv.getD [] ++ cmd.envp.getD [] ++ [cmd.cwd])

/-- The message fits the buffer and holds the string, or as much of it as fits, with a NUL. -/
def Carries (p : Platform) (headerSize : ℕ) (str : CString) (pk : Packet) : Prop :=
  pk.size ≤ headerSize + p.dataSize ∧ pk.data = str.bytes.take (p.dataSize - 1) ++ [0]

variable {p : Platform} {headerSize : ℕ} {beyond buf : List UInt8} {str : CString}
  {strs : List CString}

theorem copyLen_of_lt (h : str.length < 2 ^ 31) : copyLen str = str.length := by
  have hmod : str.length % 2 ^ 32 = str.length := Nat.mod_eq_of_lt (by omega)
  rw [copyLen, BitVec.toInt_eq_toNat_cond, BitVec.toNat_ofNat, hmod, if_pos (by omega)]

/-- The message is right just when the int holds the length of what was copied. -/
theorem carries_iff (hpos : 0 < p.dataSize) (hbuf : buf.length = p.dataSize) :
    Carries p headerSize str (packet p headerSize beyond buf str) ↔
      copyLen str = min str.length (p.dataSize - 1) := by
  have hlength := str.length_strlcpy hpos hbuf
  simp only [Carries, packet]
  by_cases hfits : (copyLen str + 1).toNat ≤ p.dataSize
  · rw [List.take_append_of_le_length (hfits.trans hlength.ge),
      str.take_strlcpy_iff hpos hbuf hfits]
    omega
  · omega

/-- The strings that are sent right. An int that does not hold the length of a string may by
chance hold the length of what was copied. -/
def Sound (p : Platform) (str : CString) : Prop :=
  str.length < p.dataSize ∨ copyLen str = p.dataSize - 1

theorem copyLen_eq_min_iff (hpos : 0 < p.dataSize) (hsize : p.dataSize ≤ 2 ^ 31) :
    copyLen str = min str.length (p.dataSize - 1) ↔ Sound p str := by
  rw [Sound]
  by_cases hlt : str.length < p.dataSize
  · have hlen := copyLen_of_lt (hlt.trans_le hsize)
    omega
  · omega

/-! ## The messages of a command -/

/-- The buffer after the strings were copied to it. -/
def bufAfter (p : Platform) (buf : List UInt8) (strs : List CString) : List UInt8 :=
  strs.foldl (fun buf str ↦ str.strlcpy buf p.dataSize) buf

theorem length_bufAfter (hpos : 0 < p.dataSize) (hbuf : buf.length = p.dataSize)
    (strs : List CString) : (bufAfter p buf strs).length = p.dataSize := by
  induction strs generalizing buf with
  | nil => exact hbuf
  | cons str strs ih => exact ih (str.length_strlcpy hpos hbuf)

theorem requests_snd (x : UInt8) (type : SpawnType) (buf : List UInt8) (strs : List CString) :
    (requests p x type buf strs).2 = bufAfter p buf strs := by
  induction strs generalizing buf with
  | nil => rfl
  | cons str strs ih => exact ih _

theorem packets_append (strs strs' : List CString) :
    packets p headerSize beyond buf (strs ++ strs') =
      packets p headerSize beyond buf strs ++
        packets p headerSize beyond (bufAfter p buf strs) strs' := by
  induction strs generalizing buf with
  | nil => rfl
  | cons str strs ih =>
      simp only [List.cons_append, packets, ih]
      rfl

/-- A string that fits and its NUL. -/
theorem data_packet (hfits : str.length < p.dataSize) (hsize : p.dataSize ≤ 2 ^ 31)
    (hbuf : buf.length = p.dataSize) :
    (packet p headerSize beyond buf str).data =
      (str.strlcpy buf p.dataSize).take (str.length + 1) := by
  have hlen := copyLen_of_lt (hfits.trans_le hsize)
  have hlength := str.length_strlcpy (Nat.zero_lt_of_lt hfits) hbuf
  have hn : (copyLen str + 1).toNat = str.length + 1 := by omega
  rw [packet, hn, List.take_append_of_le_length (by omega)]

theorem data_packets (x : UInt8) (type : SpawnType) (hpos : 0 < p.dataSize)
    (hsize : p.dataSize ≤ 2 ^ 31) (hfits : ∀ str ∈ strs, str.length < p.dataSize)
    (hbuf : buf.length = p.dataSize) :
    (packets p headerSize beyond buf strs).map Packet.data =
      (requests p x type buf strs).1.map SpawnReq.data := by
  induction strs generalizing buf with
  | nil => rfl
  | cons str strs ih =>
      obtain ⟨hstr, hstrs⟩ := List.forall_mem_cons.mp hfits
      rw [requests, packets, List.map_cons, List.map_cons, data_packet hstr hsize hbuf,
        ih hstrs (str.length_strlcpy hpos hbuf)]
      rfl

/-- For strings that fit, the packets hold the data of the messages in `execMessages`. -/
theorem data_packets_strings (x : UInt8) {cmd : Command} (hpos : 0 < p.dataSize)
    (hsize : p.dataSize ≤ 2 ^ 31) (hfits : cmd.Fits p) (hbuf : buf.length = p.dataSize) :
    (packets p headerSize beyond buf cmd.strings).map Packet.data =
      (execMessages p x cmd buf).map SpawnReq.data := by
  have hfirst := cmd.filename.length_strlcpy hpos hbuf
  have hargs := length_bufAfter hpos hfirst (cmd.argv.getD [])
  have henv := length_bufAfter hpos hargs (cmd.envp.getD [])
  simp only [Command.strings, packets, List.append_assoc, packets_append, List.map_cons,
    List.map_append, List.map_nil]
  rw [data_packet hfits.filename hsize hbuf, data_packets x .arg hpos hsize hfits.argv hfirst,
    data_packets x .env hpos hsize hfits.envp hargs, data_packet hfits.cwd hsize henv]
  simp only [execMessages, requests_snd, request, List.map_cons, List.map_append, List.map_nil,
    List.append_assoc]

theorem forall₂_carries_iff (hpos : 0 < p.dataSize) (hsize : p.dataSize ≤ 2 ^ 31)
    (hbuf : buf.length = p.dataSize) :
    List.Forall₂ (Carries p headerSize) strs (packets p headerSize beyond buf strs) ↔
      ∀ str ∈ strs, Sound p str := by
  induction strs generalizing buf with
  | nil => simp [packets]
  | cons str strs ih =>
      rw [packets, List.forall₂_cons, List.forall_mem_cons, carries_iff hpos hbuf,
        copyLen_eq_min_iff hpos hsize, ih (str.length_strlcpy hpos hbuf)]

/-- For every command, with strings of any length: the messages fit the buffer and hold the
strings, if and only if each string is shorter than the data of a message, or its length as an
int happens to be that of what was copied. -/
theorem command_carried_iff (p : Platform) (headerSize : ℕ) (hpos : 0 < p.dataSize)
    (hsize : p.dataSize ≤ 2 ^ 31) (cmd : Command) (buf beyond : List UInt8)
    (hbuf : buf.length = p.dataSize) :
    List.Forall₂ (Carries p headerSize) cmd.strings
        (packets p headerSize beyond buf cmd.strings) ↔
      ∀ str ∈ cmd.strings, str.length < p.dataSize ∨ copyLen str = p.dataSize - 1 :=
  forall₂_carries_iff hpos hsize hbuf

theorem command_carried_short :
    List.Forall₂ (Carries platform8 4) shortCommand.strings
      (packets platform8 4 [] (List.replicate 8 0) shortCommand.strings) :=
  (command_carried_iff platform8 4 (by decide) (by decide) shortCommand (List.replicate 8 0) []
    rfl).mpr (by decide)

/-- An argument as long as the data of a message. -/
def longArgument : CString := ⟨[65, 66, 67, 68, 69, 70, 71, 72], by decide⟩

/-- The message is announced with one byte more than the buffer has, and the byte behind the
buffer is sent in place of the end of the string. -/
theorem longArgument_exceeds :
    (packet platform8 4 [0xaa] (List.replicate 8 0) longArgument).size = 4 + 8 + 1 ∧
    (packet platform8 4 [0xaa] (List.replicate 8 0) longArgument).data =
      [65, 66, 67, 68, 69, 70, 71, 0, 0xaa] := by
  have hlen : copyLen longArgument = 8 := by decide
  have hbuffer : longArgument.strlcpy (List.replicate 8 0) platform8.dataSize =
      [65, 66, 67, 68, 69, 70, 71, 0] := by decide
  simp only [packet, hlen, hbuffer]
  exact ⟨rfl, rfl⟩

end AxiomApps.Spawn
