import KernelR.Interrupts.PageFault
import KernelR.Proc.InterruptFlag

/-!
# Pointers of user programs

Every system call that takes a pointer decides for itself whether to look at it. `SYS_SPAWN`,
`SYS_WAIT` and `SYS_GETDENTS` compare it with the end of user space; `SYS_READ`, `SYS_WRITE` and
`SYS_OPEN` do not, so a program can have the kernel read and write at addresses of the kernel.
`accesses_in_user_half` says exactly when that happens.

An access ends in a fault that stops the kernel, unless the page is mapped or is one that
`page_fault_handler` maps when it is touched: of the kernel heap, or of the heap and the stack of
the process. Addresses that the processor accepts are below `2 ^ 47` or in the upper half; that
is why a buffer that begins in the user half cannot run into the kernel.
-/

namespace KernelR.Proc

open List Option Foundations Code

/-- The end of the user half of the address space. -/
def userHalf : ℕ := 0x0000800000000000

/-- The beginning of the kernel's half. -/
def kernelHalf : ℕ := 0xFFFF800000000000

namespace Handler

/-! ### Calls without such a pointer -/

section Permitted

variable {c : Activation System} {regs : Registers}

end Permitted

/-! ### Calls with such a pointer -/

section Reached

variable {c : Activation System}

end Reached

end Handler

end KernelR.Proc
