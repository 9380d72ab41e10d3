import Kxo.Lib.Bytes
import Kxo.Lib.TransitionSystem
import Kxo.Spec.Game

/-!
# Kxo — the device stream (`src/main.c`)

`rx_fifo` is a byte ring of one page, kept as the list of the bytes in it. A `struct xo_table` is
copied as its sixteen bytes, each word least significant byte first.
-/

namespace Kxo

/-- `PAGE_SIZE`, the size of `rx_fifo`. -/
def pageSize : Nat := 4096

/-- `sizeof(struct xo_table)`. -/
def recordSize : Nat := 16

/-- The `n` low bytes of a word, least significant first. -/
def leBytes {w : Nat} (n : Nat) (x : BitVec w) : List Byte :=
  (List.range n).map fun k => (x >>> (8 * k)).setWidth 8

/-- `(unsigned char *) xo_tlb`. -/
def recordBytes (xoTlb : XoTable) : List Byte :=
  leBytes 4 xoTlb.attr ++ leBytes 4 xoTlb.table ++ leBytes 8 xoTlb.moves

/-- `kfifo_in`: as many bytes as there is room for. -/
def kfifoIn (fifo bytes : List Byte) : List Byte := fifo ++ bytes.take (pageSize - fifo.length)

/-- The ring, and as history variables the bytes read from it and the records put into it. -/
structure Device where
  rxFifo : List Byte
  consumed : List Byte
  produced : List XoTable

def deviceInit : Device := ⟨[], [], []⟩

def produceBoard (d : Device) (xoTlb : XoTable) : Device :=
  { d with rxFifo := kfifoIn d.rxFifo (recordBytes xoTlb), produced := d.produced ++ [xoTlb] }

/-- `kxo_read` of `count` bytes: `kfifo_to_user` copies what there is, up to `count`. -/
def kxoRead (d : Device) (count : Nat) : Device :=
  { d with rxFifo := d.rxFifo.drop count, consumed := d.consumed ++ d.rxFifo.take count }

/-- The calls on the ring. -/
inductive DeviceEvent where
  | produceBoard (xoTlb : XoTable)
  | kxoRead (count : Nat)

/-- The ring under any sequence of calls. -/
def deviceSystem : System Device DeviceEvent where
  init d := d = deviceInit
  step d e d' :=
    match e with
    | .produceBoard xoTlb => d' = produceBoard d xoTlb
    | .kxoRead count => 0 < count ∧ d' = kxoRead d count

end Kxo
