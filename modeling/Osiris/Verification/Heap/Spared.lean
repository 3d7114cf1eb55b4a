import Osiris.Verification.Heap.Contents
import Osiris.Verification.Heap.Window
import Osiris.Verification.Vmm.Spared

/-! # What `heap_init` leaves alone -/

namespace Osiris.Heap

open ByteMemory Strings Page Radix Vmm

section Spared

variable {hh x : Word} {r : ℕ} {s s' : Machine}

end Spared

end Osiris.Heap
