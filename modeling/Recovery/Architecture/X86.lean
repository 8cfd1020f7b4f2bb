import Recovery.Architecture.Basic
/-
  The 32-bit x86 processor and the 32-bit Windows platform.

  The register file is laid out by width: the eight 32-bit registers, their
  low halves, the low bytes of the first four, the high bytes of the same four,
  the six segment registers, and the flags. A register's index is its place in
  the file; its domain is the 32-bit register it is a part of.
-/

namespace Recovery.X86

private def generalRole : Nat → RegisterClass
  | 4 => .stackPointer
  | 5 => .framePointer
  | _ => .general

/-- Consecutive registers from index `first` on: the names given belong to the
domains 0, 1, 2, ... in turn. -/
private def bank (first bitOffset bitSize : Nat) (names : List String) : List Register :=
  names.zipIdx.map fun (name, domain) =>
    ⟨first + domain, name, generalRole domain, domain, bitOffset, bitSize⟩

/-- The register file. -/
def registers : List Register :=
  bank 0 0 32 ["eax", "ecx", "edx", "ebx", "esp", "ebp", "esi", "edi"]
    ++ bank 8 0 16 ["ax", "cx", "dx", "bx", "sp", "bp", "si", "di"]
    ++ bank 16 0 8 ["al", "cl", "dl", "bl"]
    ++ bank 20 8 8 ["ah", "ch", "dh", "bh"]
    ++ ["es", "cs", "ss", "ds", "fs", "gs"].zipIdx.map (fun (name, k) =>
        ⟨24 + k, name, .segment, 24 + k, 0, 16⟩)
    ++ [⟨30, "eflags", .flags, 30, 0, 32⟩]

/-- 32-bit x86. The flag bits name sign, carry, zero, direction, overflow and
parity. -/
def architecture : Architecture where
  name := "x86"
  registerCount := registers.length
  register? i := registers[i]?
  flagsRegister := registers[30]?
  flagGroupName := Architecture.flagLetters ['S', 'C', 'Z', 'D', 'O', 'P']
  returnAddressSize := 4
  pointerBitSize := 32

/-- 32-bit Windows: `esp`, `sp`, `cs` and `ss` are passed as a matter of course. -/
def windows : Platform where
  name := "win32"
  implicitRegisters := RegisterSet.ofList [4, 12, 25, 26]

theorem index_registers : registers.map Register.index = List.range 31 := by decide

end Recovery.X86
