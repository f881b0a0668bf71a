import KernelR.Fs.Tar

/-!
# Open files

`vfs.rs`: an `OpenFile` is a vnode with an offset. The vnodes that can be opened are the
console, which takes its bytes from the keyboard's mailbox, and the files of the initial ramdisk.

A read of the console waits until a key comes that stands for a byte. It is given the keys that
the mailbox delivers to it; if none of them ends the call, the call does not return, which is
the outer `none` of `Vnode.read`. The inner `none` is the `None` of the source, an error.
-/

namespace KernelR.Fs

open Foundations

/-! ### The console -/

/-- `pc_keyboard::KeyCode`, as far as the console tells the keys apart. -/
inductive KeyCode where
  | backspace
  | ret
  | other
deriving DecidableEq, Repr

/-- `pc_keyboard::DecodedKey` -/
inductive DecodedKey where
  | unicode (character : Char)
  | rawKey (key : KeyCode)
deriving DecidableEq, Repr

/-- `ConsoleVnode::read`: the number of bytes and the buffer after a key; the loop goes on with
the next one if the key stands for nothing. -/
def DecodedKey.read (buf : List UInt8) : DecodedKey → Option (ℕ × List UInt8)
  | .unicode character =>
    let tempArray := String.utf8EncodeChar character
    let safeLen := min tempArray.length buf.length
    some (safeLen, tempArray.take safeLen ++ buf.drop safeLen)
  | .rawKey .backspace => some (1, buf.set 0 0x08)
  | .rawKey .ret => some (1, buf.set 0 0x0a)
  | .rawKey .other => none

/-- `ConsoleVnode::read`, once a key is there; the wait for it is in `Handler.consoleRead`. -/
def consoleRead (buf : List UInt8) (keys : List DecodedKey) : Option (ℕ × List UInt8) :=
  if buf.isEmpty then some (0, buf) else keys.findSome? (DecodedKey.read buf)

/-! ### Vnodes and open files -/

/-- The vnodes that can be opened, the two implementations of the trait `Vnode` that matter: a
directory is never opened. -/
inductive Vnode where
  | console
  | file (v : TarVnode)
deriving DecidableEq, Repr

/-- `Vnode::read`: the number of bytes read, and the buffer afterwards. -/
def Vnode.read (mem : Memory) (keys : List DecodedKey) (offset : ℕ) (buf : List UInt8) :
    Vnode → Option (Option ℕ × List UInt8)
  | .console => (consoleRead buf keys).map fun (bytesRead, buf) => (some bytesRead, buf)
  | .file v =>
    match v.read mem offset buf with
    | some (bytesRead, buf) => some (some bytesRead, buf)
    | none => some (none, buf)

/-- `Vnode::write`; the ramdisk cannot be written. What appears on the screen is left out. -/
def Vnode.write (buf : List UInt8) : Vnode → Option ℕ
  | .console => some buf.length
  | .file _ => none

/-- `OpenFile` -/
structure OpenFile where
  vnode : Vnode
  offset : ℕ
  readable : Bool
  writable : Bool
deriving DecidableEq, Repr

/-- `spawn_user_process`: the console of a new process. -/
def consoleFile : OpenFile := ⟨.console, 0, true, true⟩

/-- `SYS_OPEN`: a file that was just opened. -/
def openedFile (v : TarVnode) : OpenFile := ⟨.file v, 0, true, false⟩

namespace OpenFile

/-- `SYS_READ`, on the file that the descriptor denotes: the number of bytes, if it is no error,
with the buffer and the file afterwards. -/
def read (file : OpenFile) (mem : Memory) (keys : List DecodedKey) (buf : List UInt8) :
    Option (Option ℕ × List UInt8 × OpenFile) :=
  if file.readable then do
    match ← file.vnode.read mem keys file.offset buf with
    | (some bytesRead, buf) => do
        let offset ← checkedAdd file.offset bytesRead
        some (some bytesRead, buf, { file with offset })
    | (none, buf) => some (none, buf, file)
  else some (none, buf, file)

/-- `SYS_WRITE`, on the file that the descriptor denotes. -/
def write (file : OpenFile) (buf : List UInt8) : Option (Option ℕ × OpenFile) :=
  if file.writable then
    match file.vnode.write buf with
    | some bytesWritten => do
        let offset ← checkedAdd file.offset bytesWritten
        some (some bytesWritten, { file with offset })
    | none => some (none, file)
  else some (none, file)

end OpenFile

end KernelR.Fs
