/-
**A queue of the network card.**

A table of descriptors and two rings: through `avail` the driver gives descriptors to the device, through `used`
the device gives them back. Each side remembers how far it has read the other's ring. Indices have 16 bits. The
three parts lie in memory one behind the other; here they are apart.
-/

import Ferros.Lib.Ring

namespace Ferros.Drivers

open Lib List Function

/-- A descriptor: a buffer in memory. -/
structure Desc where
  addr : ℕ
  len : ℕ
  flags : ℕ
  next : ℕ
  deriving DecidableEq, Repr

/-- The queue, with the driver's fields. An entry of `used` has a descriptor and a length. -/
structure Virtq where
  desc : ℕ → Desc
  avail : Lib.Ring ℕ
  used : Lib.Ring (ℕ × ℕ)
  queueSize : ℕ
  lastUsedIdx : ℕ

/-- `setup_virtq`: everything is zero. -/
def Virtq.setup (queueSize : ℕ) : Virtq :=
  ⟨fun _ => ⟨0, 0, 0, 0⟩, ⟨fun _ => 0, 0⟩, ⟨fun _ => (0, 0), 0⟩, queueSize, 0⟩

/-- The length of `virtio_net_hdr`. -/
def netHdrLen : ℕ := 10

/-- The bytes of memory from an address on. -/
def window (mem : ℕ → UInt8) (start len : ℕ) : List UInt8 := (range len).map fun i => mem (start + i)

variable {mem : ℕ → UInt8} {start len : ℕ}

theorem length_window : (window mem start len).length = len := by
  rw [window, length_map, length_range]

theorem getElem_window {i : ℕ} (inside : i < (window mem start len).length) :
    (window mem start len)[i] = mem (start + i) := by
  simp only [window, getElem_map, getElem_range]

/-! ### The driver -/

def Virtq.writeDesc (i : ℕ) (d : Desc) (q : Virtq) : Virtq := { q with desc := update q.desc i d }

theorem Virtq.desc_writeDesc (i : ℕ) (d : Desc) (q : Virtq) : (q.writeDesc i d).desc i = d := by
  show update q.desc i d i = d
  rw [update_self]

/-- Also the new index. -/
def Virtq.pushAvail (descHead : ℕ) (q : Virtq) : ℕ × Virtq :=
  let avail := q.avail.push 16 q.queueSize descHead
  (avail.idx, { q with avail })

def Virtq.takeUsed (q : Virtq) : Option ((ℕ × ℕ) × Virtq) :=
  (q.used.peek q.queueSize q.lastUsedIdx).map fun elem =>
    (elem, { q with lastUsedIdx := (q.lastUsedIdx + 1) % 2 ^ 16 })

/-! ### The device -/

/-- The next descriptor for a device that has read up to `seen`. -/
def Virtq.nextAvail (seen : ℕ) (q : Virtq) : Option ℕ := q.avail.peek q.queueSize seen

def Virtq.pushUsed (elem : ℕ × ℕ) (q : Virtq) : Virtq := { q with used := q.used.push 16 q.queueSize elem }

end Ferros.Drivers
