import Ninix.Driver.Printf
import Ninix.Vfs.PathWalk
import Ninix.Vfs.WholeFile

/-!
# Printing a file

`vfs_cat` reads a file as a whole, puts out what it has read up to the first zero, and closes the
file again. Where the cache has room for the pages of the file, the screen shows the end of it.
-/

namespace Ninix.Vfs

open ByteBuffer Vga Vga.Console

/-- `EREAD` -/
def eread : ℕ := 521

/-- The bytes of a buffer from its beginning on, with what is behind the bytes that are read set to
zero, as by `buf[size] = 0`. -/
def stringOf (buf : Bytes) (size : ℕ) : List Byte :=
  (List.range size).map (fun i => (buf i).toBitVec) ++ [0]

/-- `vfs_cat`, given what `vfs_open` returns, an error or the address of a file with its inode, and
the memory that `kmalloc` returns, if any. -/
def vfsCat (hooks : ℕ → FileHooks) (opened : Except ℕ (ℕ × ℕ)) (memory : Option Bytes)
    (s : FileStore) (console : Console) : Option (ℕ × FileStore × Console) :=
  match opened with
  | .error err => (kernelMessage "Cannot find or open this file!\n" console).map fun console =>
      (err, s, console)
  | .ok (filp, ino) =>
      let file := dentryOpen ino 0
      let s := { s with files := Function.update s.files filp (some file) }
      let size := (s.inodes ino).iSize
      match memory with
      | none => some (sub32 0 enomem, s, console)
      | some buf =>
          ((s.openFile file).genericFileRead (hooks ino) allDone buf size).bind fun (cnt, buf, f) =>
            let s := s.putBack filp file f
            if cnt ≠ size then some (sub32 0 eread, s, console)
            else
              (kernelPrintf [37, 115, 10, 0] [.str (stringOf buf size)] console).bind
                fun (_, console) =>
                  (s.step hooks (.vfsClose filp)).bind fun (s, result) =>
                    if result.returned ≠ 0 then
                      (kernelMessage "Fail to close this file!\n" console).map fun console =>
                        (result.returned, s, console)
                    else some (result.returned, s, console)

theorem takeWhile_terminated (text : List Byte) :
    (text ++ [0]).takeWhile (· ≠ 0) = text.takeWhile (· ≠ 0) := by
  induction text with
  | nil => rfl
  | cons c text ih =>
      by_cases isNul : c = 0
      · subst isNul
        rfl
      · have plain := decide_eq_true isNul
        rw [List.cons_append, List.takeWhile_cons_of_pos (p := fun c => decide (c ≠ 0)) plain,
          List.takeWhile_cons_of_pos (p := fun c => decide (c ≠ 0)) plain, ih]

namespace FileStore

variable {ground : FileGround} {s : FileStore} {ino : ℕ}

/-- The characters of a file up to the first zero -/
def fileText (ground : FileGround) (s : FileStore) (ino : ℕ) : List Byte :=
  ((s.bytes ground ino).map UInt8.toBitVec).takeWhile (· ≠ 0)

theorem stringOf_fillBuffer (buf : Bytes) (bytes : List UInt8) :
    stringOf (ByteFiles.fillBuffer buf bytes) bytes.length = bytes.map UInt8.toBitVec ++ [0] := by
  rw [stringOf]
  congr 1
  refine List.ext_getElem? fun i => ?_
  rw [List.getElem?_map, List.getElem?_map]
  by_cases inside : i < bytes.length
  · rw [List.getElem?_range inside, Option.map_some, ByteFiles.fillBuffer,
      List.getElem?_eq_getElem inside]
    rfl
  · rw [List.getElem?_eq_none (by rw [List.length_range]; omega),
      List.getElem?_eq_none (Nat.le_of_not_lt inside)]
    rfl

/-- A file whose pages there is room for in the cache is put out up to the first zero, and then it
is as before, and closed. -/
theorem vfsCat_puts (good : ground.Good) (backed : s.Backed ground)
    (nonempty : 0 < (s.inodes ino).iSize) (small : (s.inodes ino).iSize < 4294967296)
    (room : s.cache.cSize + (s.inodes ino).aPage.length ≤ cacheCapacity)
    (listed : s.cache.Listed ino) (filp : ℕ) (buf : Bytes) (console : Console) :
    ∃ final, vfsCat ground.hooks (.ok (filp, ino)) (some buf) s console =
        some (0, final, putText 0xfff 0 (s.fileText ground ino ++ [10]) console) ∧
      final.Backed ground ∧
      final.view ground = ⟨s.bytes ground, Function.update s.files filp none⟩ := by
  let opened : FileStore :=
    { s with files := Function.update s.files filp (some (dentryOpen ino 0)) }
  rcases read_whole good backed nonempty small room listed (rfl : opened = _) buf with
    ⟨f, closed, ran, stepped, backedClosed, viewClosed, -, -⟩
  have text : stringOf (ByteFiles.fillBuffer buf (s.bytes ground ino)) (s.inodes ino).iSize =
      (s.bytes ground ino).map UInt8.toBitVec ++ [0] := by
    rw [← stringOf_fillBuffer buf, length_bytes]
  have terminated : 0 ∈ (s.bytes ground ino).map UInt8.toBitVec ++ [0] :=
    List.mem_append_right _ List.mem_cons_self
  have printed := kernelPrintf_line terminated console
  rw [takeWhile_terminated, ← text] at printed
  refine ⟨closed, ?_, backedClosed, viewClosed⟩
  show ((opened.openFile (dentryOpen ino 0)).genericFileRead (ground.hooks ino) allDone buf
    (s.inodes ino).iSize).bind _ = _
  rw [ran, Option.bind_some]
  show (if (s.inodes ino).iSize ≠ (s.inodes ino).iSize then _ else _) = _
  rw [if_neg (not_not_intro rfl), printed, Option.bind_some, stepped]
  rfl

/-- From the blocks of a file to the screen: whatever has been put out since the screen was cleared,
`vfs_cat` puts the file behind it up to its first zero, the screen shows the end of all that, and
every file has the bytes it had. The buffer has a byte more than the file, and `kmalloc` gives no
more than 64 KiB. -/
theorem vfsCat_shows (good : ground.Good) (backed : s.Backed ground)
    (nonempty : 0 < (s.inodes ino).iSize) (small : (s.inodes ino).iSize < 65536)
    (room : s.cache.cSize + (s.inodes ino).aPage.length ≤ cacheCapacity)
    (listed : s.cache.Listed ino) (filp : ℕ) (buf : Bytes) (console : Console) (calls : List Call) :
    ∃ final console', vfsCat ground.hooks (.ok (filp, ino)) (some buf) s
        (calls.foldl putchar (console.kernelClearScreen 31)) = some (0, final, console') ∧
      console'.Shows (printed (calls ++ textCalls 0xfff 0 (s.fileText ground ino ++ [10]))) ∧
      final.Backed ground ∧
      final.view ground = ⟨s.bytes ground, Function.update s.files filp none⟩ := by
  have inRange : (s.inodes ino).iSize < 4294967296 := small.trans (by decide)
  rcases vfsCat_puts good backed nonempty inRange room listed filp buf
    (calls.foldl putchar (console.kernelClearScreen 31)) with ⟨final, ran, backed', viewed⟩
  refine ⟨final, _, ran, ?_, backed', viewed⟩
  rw [putText, ← List.foldl_append]
  exact shows_printed console _

/-- A console whose memory holds no characters. -/
def emptyConsole : Console := ⟨⟨0, 0, 0, 0⟩, fun _ => 0⟩

theorem vfsCat_shows_oneFile : ∃ final console',
    vfsCat twoFiles.hooks (.ok (7, 0)) (some zeros) oneFile (emptyConsole.kernelClearScreen 31) =
      some (0, final, console') ∧
    console'.Shows (printed (textCalls 0xfff 0 [65, 65, 65, 10])) := by
  have nonempty : 0 < (oneFile.inodes 0).iSize := by decide
  have backed : oneFile.Backed twoFiles := backed_oneFile fun _ => (by decide : 3 ≤ 512)
  rcases vfsCat_shows good_twoFiles backed nonempty (by decide) (by decide)
    (fun q mem => absurd mem List.not_mem_nil) 7 zeros emptyConsole [] with
    ⟨final, console', ran, shown, _, _⟩
  exact ⟨final, console', ran, shown⟩

end FileStore

end Ninix.Vfs
