import EmbeddedCourse.Lib.CString
import Mathlib.Data.List.TakeDrop

/-! # An open file

The bytes of a file and the offset of a descriptor. A read or write starts at the
offset and moves it behind what it has read or written; `lseek` sets it, unless that
would be before the start of the file.
-/

namespace EmbeddedCourse.OpenFile

open CString

structure File where
  content : Bytes
  offset : ℕ
deriving DecidableEq

namespace File

/-- `read(fd, buf, n)`: what is read; nothing at the end of the file. -/
def read (f : File) (n : ℕ) : Bytes × File :=
  ((f.content.drop f.offset).take n,
    { f with offset := f.offset + ((f.content.drop f.offset).take n).length })

/-- `write(fd, s, |s|)`; a gap before the offset is filled with zeros. -/
def write (f : File) (s : Bytes) : File where
  content := f.content.takeD f.offset 0 ++ s ++ f.content.drop (f.offset + s.length)
  offset := f.offset + s.length

/-- `lseek` to a distance from `base`. -/
def seek (f : File) (base distance : ℤ) : File :=
  if 0 ≤ base + distance then { f with offset := (base + distance).toNat } else f

def seekCur (f : File) (distance : ℤ) : File := f.seek f.offset distance

def seekEnd (f : File) (distance : ℤ) : File := f.seek f.content.length distance

theorem read_one {f : File} (h : f.offset < f.content.length) :
    f.read 1 = ([f.content[f.offset]], { f with offset := f.offset + 1 }) := by
  rw [read, List.drop_eq_getElem_cons h]
  rfl

theorem seek_eq {f : File} {base distance : ℤ} {n : ℕ} (h : base + distance = n) :
    f.seek base distance = { f with offset := n } := by
  rw [seek, h, if_pos (Int.natCast_nonneg n), Int.toNat_natCast]

/-- A write at the start of the file keeps what is behind the written text. -/
theorem content_write_zero (content s : Bytes) :
    (write ⟨content, 0⟩ s).content = s ++ content.drop s.length := by
  simp [write]

end File

end EmbeddedCourse.OpenFile
