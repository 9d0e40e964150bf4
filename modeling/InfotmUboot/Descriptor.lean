import InfotmUboot.Text
import InfotmUboot.Lib.Bytes

/-!
# USB descriptors

`init_string` and `req_get_descriptor` of `imapx800_udc.c`: the strings of the device, and what a
request for a descriptor is answered. Of the buffer it is kept which of its bytes were written; a
read of an entry of `device_strings` that was never set has no result.
-/

namespace InfotmUboot

open Lib

def UDC_MAX_PACKET_EP0 : ℕ := 0x40

def USB_DT_DEVICE : ℕ := 1
def USB_DT_CONFIG : ℕ := 2
def USB_DT_STRING : ℕ := 3
def USB_DT_DEVICE_QUALIFIER : ℕ := 6

def DEVICE_STRING_PRODUCT_INDEX : ℕ := 1
def DEVICE_STRING_SERIAL_NUMBER_INDEX : ℕ := 2
def DEVICE_STRING_CONFIG_INDEX : ℕ := 3
def DEVICE_STRING_INTERFACE_INDEX : ℕ := 4
def DEVICE_STRING_MANUFACTURER_INDEX : ℕ := 5
def DEVICE_STRING_MAX_INDEX : ℕ := DEVICE_STRING_MANUFACTURER_INDEX

/-- `device_descriptor` -/
def deviceDescriptor : List UInt8 :=
  [18, 1, 0x00, 0x02, 0xff, 0xff, 0xff, 0x40, 0x51, 0x04, 0xfe, 0xca, 0x11, 0x03, 5, 1, 2, 1]

/-- `settings_descriptor`: the configuration, its interface and the two endpoints. -/
def settingsDescriptor : List UInt8 :=
  [9, 2, 32, 0, 1, 1, 3, 0xc0, 0x32] ++ [9, 4, 0, 0, 2, 0xff, 0x42, 0x03, 4] ++
    [7, 5, 0x81, 2, 0x00, 0x02, 0] ++ [7, 5, 0x02, 2, 0x00, 0x02, 0]

/-- `q_descriptor` -/
def qDescriptor (bLength : UInt8) : List UInt8 :=
  [bLength, 6, 0x00, 0x02, 0xff, 0xff, 0xff, 0x40, 1, 0]

/-- `string_descriptor`, with the language. -/
def stringDescriptor (bLength : UInt8) : List UInt8 := [bLength, 3, 0x09, 0x04]

section Strings

/-- `sizeof(board_serial)` -/
def BOARD_SERIAL_SIZE : ℕ := 64

/-- What `sprintf` makes of the value of `serialno`. -/
def serialText (serialno : Option (List UInt8)) : List UInt8 := serialno.getD (ascii "<NULL>")

abbrev DeviceStrings := ℕ → Option (List UInt8)

/-- The entries of `device_strings`; those for the product and the serial number are given. -/
def deviceStrings (product serial : List UInt8) : DeviceStrings := fun i =>
  if i = DEVICE_STRING_PRODUCT_INDEX then some product
  else if i = DEVICE_STRING_SERIAL_NUMBER_INDEX then some serial
  else if i = DEVICE_STRING_CONFIG_INDEX ∨ i = DEVICE_STRING_INTERFACE_INDEX then
    some (ascii "Android Fastboot")
  else if i = DEVICE_STRING_MANUFACTURER_INDEX then some (ascii "Infotmic")
  else none

/-- `init_string`. A lookup that runs past the table or a serial number that does not fit has no
result. -/
def initString (tab : Mem) (serialno : Option (List UInt8)) : Option DeviceStrings :=
  match itemExist tab (ascii "board.name") with
  | .outside => none
  | .missing => some (deviceStrings (ascii "Imapx820") (ascii "00123"))
  | .found _ =>
    if itemString tab (ascii "board.name") 0 = .outside then none
    else
      let boardSerial := serialText serialno
      if boardSerial.length + 1 ≤ BOARD_SERIAL_SIZE then
        some (deviceStrings boardSerial boardSerial)
      else none

end Strings

/-- The buffer of the answer, with the places in it that were written. -/
structure EpBuf where
  mem : Mem
  writes : List ℕ

def EpBuf.put (b : EpBuf) (i : ℕ) (c : UInt8) : EpBuf := ⟨b.mem.store i [c], b.writes ++ [i]⟩

/-- `memcpy` to the start of the buffer -/
def EpBuf.memcpy (b : EpBuf) (bs : List UInt8) : EpBuf :=
  ⟨b.mem.store 0 bs, b.writes ++ List.range bs.length⟩

/-- The loop over the characters of a string. It counts in a character, so it may have no end. -/
def copyChars (str : List UInt8) (sl : ℕ) : ℕ → ℕ → EpBuf → Option EpBuf
  | 0, _, _ => none
  | n + 1, s, b =>
    if s < sl + 1 then
      copyChars str sl n ((s + 1) % 256) ((b.put (s * 2) (str.getD (s - 1) 0)).put (s * 2 + 1) 0)
    else some b

/-- What is sent for a request, and the buffer that it comes from. -/
structure DescOut where
  buf : EpBuf
  sent : List UInt8

/-- A descriptor and its length, before the length is cut. -/
def DescOut.answer (buf : EpBuf) (txLen : ℕ) (wLength : UInt16) : DescOut :=
  ⟨buf, buf.mem.load 0 (min wLength.toNat txLen)⟩

/-- `MIN` has the type of its first argument. -/
def min8 (x : UInt8) (y : UInt16) : UInt8 := min x y.toUInt8

/-- `req_get_descriptor`, with what is in the buffer that is allocated. An unknown descriptor is
acknowledged. -/
def reqGetDescriptor (strings : DeviceStrings) (mem : Mem) (wValue wLength : UInt16) :
    Option DescOut :=
  let buf : EpBuf := ⟨mem, []⟩
  let type := wValue.toNat / 256
  if type = USB_DT_DEVICE then
    some (.answer (buf.memcpy deviceDescriptor) deviceDescriptor.length wLength)
  else if type = USB_DT_CONFIG then
    some (.answer (buf.memcpy settingsDescriptor) settingsDescriptor.length wLength)
  else if type = USB_DT_DEVICE_QUALIFIER then
    let bLength := (min wLength.toNat 10).toUInt8
    some (.answer (buf.memcpy (qDescriptor bLength)) 10 wLength)
  else if type = USB_DT_STRING then
    let sIndex := wValue.toNat % 256
    if sIndex = 0 ∨ DEVICE_STRING_MAX_INDEX < sIndex then
      let bLength := (min wLength.toNat 4).toUInt8
      some (.answer (buf.memcpy (stringDescriptor bLength)) 4 wLength)
    else do
      let str ← strings sIndex
      let sl := str.length.toUInt8
      let bLength := min8 (2 + 2 * sl) wLength
      let buf := (buf.put 0 bLength).put 1 3
      let buf ← copyChars str sl.toNat 256 1 buf
      some (.answer buf bLength.toNat wLength)
  else some ⟨buf, []⟩

end InfotmUboot
