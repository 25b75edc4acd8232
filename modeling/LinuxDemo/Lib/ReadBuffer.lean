import LinuxDemo.Lib.CString

/-!
# Buffers that `read` fills

`fill m data` is the buffer after `read` has put `data` at its start: what lay behind
stays. `contents m n` is what `write(fd, m, n)` writes.
-/
namespace LinuxDemo.Lib.ReadBuffer
open LinuxDemo.Lib.CString

def fill (m : Buffer) (data : List UInt8) : Buffer := fun i => data.getD i (m i)

def contents (m : Buffer) (n : Nat) : List UInt8 := (List.range n).map m

/-- What was read stands at the start of the buffer. -/
theorem holds_fill (m : Buffer) (data : List UInt8) : Holds (fill m data) 0 data := by
  apply holds_of_getElem
  intro i hi
  simp [fill, hi]

/-- What stands at the start of the buffer is what a write of as many bytes writes. -/
theorem contents_of_holds {m : Buffer} {data : List UInt8} (h : Holds m 0 data) :
    contents m data.length = data := by
  have text := map_of_holds h
  simp only [Nat.zero_add] at text
  exact text

@[simp] theorem contents_fill (m : Buffer) (data : List UInt8) :
    contents (fill m data) data.length = data :=
  contents_of_holds (holds_fill m data)

end LinuxDemo.Lib.ReadBuffer
