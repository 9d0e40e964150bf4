import InfotmUboot.Text

/-!
# Fastboot

`rx_handler`, `fastboot_pre_download`, `fastboot_download_image` and the loop of `fastboot` in
`cmd_fastboot.c`, with `fastboot_poll` and `fastboot_rx` below them. The memory from the transfer
buffer on and that from the command buffer on are kept apart. Every write of received bytes and of
padding is listed.
-/

namespace InfotmUboot

open Lib

/-- `struct cmd_fastboot_interface` -/
structure FastbootInterface where
  nandBlockSize : ℕ
  transferBufferSize : ℕ
  size_lt : transferBufferSize < 2 ^ 32

/-- `interface` -/
def fastbootInterface : FastbootInterface := ⟨0, 0x18000000, by norm_num⟩

/-- What `rx_handler` gets for `buffer_size`: what was asked for, as `fastboot_rx` has it, or what
was received, as `fastboot.h` has it. -/
inductive RxCount where
  | asked
  | received

inductive Buf where
  | cmdbuf
  | transfer
  deriving DecidableEq, Repr

structure Written where
  buf : Buf
  start : ℕ
  len : ℕ

/-- What is sent: an answer to a command, or the one that ends a download. -/
inductive FastbootTx where
  | status (response : List UInt8)
  | download (response : List UInt8)
  deriving DecidableEq, Repr

structure FastbootState where
  downloadSize : ℕ
  downloadBytes : ℕ
  downloadBytesUnpadded : ℕ
  downloadError : ℕ
  transfer : Mem
  cmdbuf : Mem

structure FastbootOut where
  state : FastbootState
  written : List Written
  sent : List FastbootTx

inductive FastbootCmd where
  | reboot
  | getvar
  | setserial
  | erase
  | download
  | boot
  | flash
  | bootos
  | continue_
  | unknown
  deriving DecidableEq, Repr

/-- The commands that run other code: what they answer, and what they leave in the memory from the
transfer buffer on. -/
structure FastbootWorld where
  replies : FastbootCmd → FastbootState → List (List UInt8)
  memory : FastbootCmd → Mem → Mem

section Download

variable (iface : FastbootInterface)

def FastbootState.mem (s : FastbootState) : Buf → Mem
  | .cmdbuf => s.cmdbuf
  | .transfer => s.transfer

def FastbootState.put (s : FastbootState) (start : ℕ) (bs : List UInt8) : Buf → FastbootState
  | .cmdbuf => { s with cmdbuf := s.cmdbuf.store start bs }
  | .transfer => { s with transfer := s.transfer.store start bs }

/-- The zeros behind a download, up to the end of the buffer. -/
def padLoop : ℕ → FastbootState → FastbootState × List Written
  | 0, s => (s, [])
  | pad + 1, s =>
    if s.downloadBytes ≥ iface.transferBufferSize then (s, [])
    else
      let (s', ws) := padLoop pad
        { s.put s.downloadBytes [0] .transfer with downloadBytes := s.downloadBytes + 1 }
      (s', ⟨.transfer, s.downloadBytes, 1⟩ :: ws)

/-- What is done once all bytes are there. -/
def downloadDone (s : FastbootState) : FastbootState × List Written × List FastbootTx :=
  let response := if s.downloadError ≠ 0 then ascii "ERROR" else ascii "OKAY"
  let s := { s with downloadSize := 0, downloadBytesUnpadded := s.downloadBytes }
  if iface.nandBlockSize ≠ 0 ∧ s.downloadBytes % iface.nandBlockSize ≠ 0 then
    let (s, ws) := padLoop iface (iface.nandBlockSize - s.downloadBytes % iface.nandBlockSize) s
    (s, ws, [.download response])
  else (s, [], [.download response])

def fastbootDownloadImage (buf : Buf) (start bufferSize : ℕ) (s : FastbootState) : FastbootOut :=
  if bufferSize = 0 then ⟨s, [], []⟩
  else
    let room := toU32 (s.downloadSize - s.downloadBytes)
    let transferSize := if bufferSize < room then bufferSize else room
    -- nothing is copied where the bytes are there already
    let (s, ws) :=
      if buf = .transfer ∧ start = s.downloadBytes then (s, [])
      else (s.put s.downloadBytes ((s.mem buf).load start transferSize) .transfer,
        [⟨.transfer, s.downloadBytes, transferSize⟩])
    let s := { s with downloadBytes := u32 (s.downloadBytes + transferSize) }
    if s.downloadBytes ≥ s.downloadSize then
      let (s, pads, txs) := downloadDone iface s
      ⟨s, ws ++ pads, txs⟩
    else ⟨s, ws, []⟩

end Download

section Command

variable (iface : FastbootInterface) (w : FastbootWorld)

/-- `simple_strtoul` of base 16 -/
def strtoul16 : List UInt8 → ℕ
  | 0x30 :: 0x78 :: c :: cs =>
    if (digitValue c).isSome then strtoulLoop 16 (c :: cs) 0 else 0
  | cs => strtoulLoop 16 cs 0

/-- The size of a download is in the eight bytes behind the command. -/
def fastbootPreDownload (s : FastbootState) : FastbootOut :=
  let s := s.put 17 (List.replicate 8 0) .cmdbuf
  let size := strtoul16 (s.cmdbuf.load 9 8)
  let ws := [⟨.cmdbuf, 17, 8⟩]
  let s := { s with downloadSize := size, downloadBytes := 0, downloadError := 0 }
  if size = 0 then ⟨s, ws, [.status (ascii "FAILdata invalid size")]⟩
  else if size > iface.transferBufferSize then
    ⟨{ s with downloadSize := 0 }, ws, [.status (ascii "FAILdata too large")]⟩
  else ⟨s, ws, [.status (ascii "DATA" ++ hex8 size)]⟩

/-- `setserial:` -/
def fastbootSetSerial (s : FastbootState) : FastbootOut :=
  let s := s.put 22 (List.replicate 40 0) .cmdbuf
  ⟨s, [⟨.cmdbuf, 22, 40⟩], [.status
    (if s.cmdbuf 10 ≠ 0 then ascii "OKAY" else ascii "FAILInvalid serial number")]⟩

/-- Which command it is, in the order in which they are looked for. -/
def fastbootCmd (cmdbuf : Mem) : FastbootCmd :=
  if cmdbuf.load 0 6 = ascii "reboot" then .reboot
  else if cmdbuf.load 0 7 = ascii "getvar:" then .getvar
  else if cmdbuf.load 0 10 = ascii "setserial:" then .setserial
  else if cmdbuf.load 0 6 = ascii "erase:" then .erase
  else if cmdbuf.load 0 9 = ascii "download:" then .download
  else if cmdbuf.load 0 4 = ascii "boot" then .boot
  else if cmdbuf.load 0 6 = ascii "flash:" then .flash
  else if cmdbuf.load 0 6 = ascii "bootos" then .bootos
  else if cmdbuf.load 0 8 = ascii "continue" then .continue_
  else .unknown

def rxHandler (buf : Buf) (start bufferSize : ℕ) (s : FastbootState) : FastbootOut :=
  if s.downloadSize ≠ 0 then fastbootDownloadImage iface buf start bufferSize s
  else
    match fastbootCmd s.cmdbuf with
    | .download => fastbootPreDownload iface s
    | .setserial => fastbootSetSerial s
    | .erase => ⟨s, [], [.status (ascii "FAIL")]⟩
    | .unknown => ⟨s, [], [.status (ascii "FAILNO such command")]⟩
    | cmd => ⟨{ s with transfer := w.memory cmd s.transfer }, [], (w.replies cmd s).map .status⟩

end Command

section Poll

variable (iface : FastbootInterface) (count : RxCount) (w : FastbootWorld)

/-- `buffer` and `len` -/
def pollBuffer (s : FastbootState) : Buf × ℕ × ℕ :=
  if s.downloadSize = 0 then (.cmdbuf, 0, 0x40) else (.transfer, s.downloadBytes, s.downloadSize)

/-- One pass of the loop of `fastboot`, with a packet of which no more comes than is asked for. -/
def fastbootPoll (packet : List UInt8) (s : FastbootState) : FastbootOut :=
  let (buf, start, len) := pollBuffer s
  let bs := packet.take len
  let bufferSize := match count with
    | .asked => len
    | .received => bs.length
  let out := rxHandler iface w buf start bufferSize (s.put start bs buf)
  { out with written := ⟨buf, start, bs.length⟩ :: out.written }

end Poll

end InfotmUboot
