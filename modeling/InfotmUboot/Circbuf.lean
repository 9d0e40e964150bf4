import InfotmUboot.Lib.Bytes

/-!
# The circular buffer

`buf_init`, `buf_pop` and `buf_push` of `circbuf.c`. The pointers of a buffer are their distances
from `data`. A call that would read or write a byte which `malloc` has not given has no result.
-/

namespace InfotmUboot

open Lib

/-- `circbuf_t`, with the bytes that `malloc` gave. -/
structure Circbuf where
  size : ℕ
  totalsize : ℕ
  data : Mem
  room : ℕ
  top : ℕ
  tail : ℕ
  stop : ℕ

/-- `buf_init`. A failure of `malloc` is found by an assertion only. -/
def bufInit (malloc : Bool) (size : ℕ) (data : Mem) : Circbuf where
  size := 0
  totalsize := size
  data := data
  room := if malloc then size else 0
  top := 0
  tail := 0
  stop := size

section Calls

variable (buf : Circbuf)

/-- `p++`, with the bounds check. -/
def Circbuf.next (p : ℕ) : ℕ := if p + 1 = buf.stop then 0 else p + 1

/-- The loop of `buf_pop`: `dest` and `p`. -/
def popLoop : ℕ → ℕ → Option (List UInt8 × ℕ)
  | 0, p => some ([], p)
  | n + 1, p =>
    if p < buf.room then (popLoop n (buf.next p)).map fun r => (buf.data p :: r.1, r.2) else none

def bufPop (len : ℕ) : Option (ℕ × List UInt8 × Circbuf) :=
  let len := if len > buf.size then buf.size else len
  (popLoop buf len buf.top).map fun r =>
    (len, r.1, { buf with top := r.2, size := buf.size - len })

/-- The loop of `buf_push`: the buffer and `p`. -/
def pushLoop : List UInt8 → ℕ → Circbuf → Option (Circbuf × ℕ)
  | [], p, buf => some (buf, p)
  | c :: src, p, buf =>
    if p < buf.room then
      let buf := { buf with data := buf.data.store p [c] }
      let p := buf.next p
      if buf.size < buf.totalsize then pushLoop src p { buf with size := buf.size + 1 }
      else pushLoop src p { buf with top := buf.next buf.top }
    else none

def bufPush (src : List UInt8) : Option (ℕ × Circbuf) :=
  (pushLoop src buf.tail buf).map fun r => (src.length, { r.1 with tail := r.2 })

end Calls

end InfotmUboot
