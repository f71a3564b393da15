import Ninix.Vfs.EditorText
import Ninix.Vfs.WholeFile

/-!
# Editing a file

`vi` loads a file into its buffer, handles keys until a command ends it, and writes the buffer back
if the command says so. It never makes a file shorter: where the text has become shorter than the
file was, the newline behind it and spaces fill the rest.
-/

namespace Ninix.Vi

open Vfs ByteBuffer

/-- `load_file`, given what `vfs_open` returns, an error or the address of a file with its inode -/
def loadStored (hooks : ℕ → FileHooks) (opened : Except ℕ (ℕ × ℕ)) (s : Victrl)
    (store : FileStore) : Option (ℕ × Victrl × FileStore) :=
  match opened with
  | .error err => some (err, s, store)
  | .ok (filp, ino) =>
      let file := dentryOpen ino 0
      let store := { store with files := Function.update store.files filp (some file) }
      let filesize := (store.inodes ino).iSize
      if bufferSize ≤ filesize then
        (store.step hooks (.vfsClose filp)).map fun (store, _) => (esize, s, store)
      else
        let s := { s with oldSize := filesize, size := filesize }
        ((store.openFile file).genericFileRead (hooks ino) allDone s.buffer s.size).bind
          fun (readsize, buffer, f) =>
            let store := store.putBack filp file f
            let s := { s with buffer }
            if readsize < s.size then some (eread, s, store)
            else
              let s := { s with
                buffer := Function.update s.buffer s.size keyEnterN
                size := s.size + 1 }
              (store.step hooks (.vfsClose filp)).map fun (store, result) =>
                (result.returned, s, store)

/-- `vfs_save`, given what `vfs_open` returns. What closing the file returns is returned, whether
or not all bytes have been written. -/
def vfsSave (hooks : ℕ → FileHooks) (opened : Except ℕ (ℕ × ℕ)) (s : Victrl) (store : FileStore) :
    Option (ℕ × FileStore) :=
  match opened with
  | .error err => some (err, store)
  | .ok (filp, ino) =>
      let file := dentryOpen ino 1
      let store := { store with files := Function.update store.files filp (some file) }
      let writesize := if s.oldSize < sub32 s.size 1 then sub32 s.size 1 else s.oldSize
      ((store.openFile file).genericFileWrite (hooks ino) allDone s.buffer writesize).bind
        fun (_, f) =>
          ((store.putBack filp file f).step hooks (.vfsClose filp)).map fun (store, result) =>
            (result.returned, store)

/-- A key makes `do_last_line_mode` save the file. -/
def Victrl.Saves (s : Victrl) (key : UInt8) : Prop :=
  s.mode = 2 ∧ Victrl.lowercase key = keyEnterN ∧ s.instLen = 3 ∧ s.inst 1 = 'w'.toUInt8 ∧
    s.inst 2 = 'q'.toUInt8

instance (s : Victrl) (key : UInt8) : Decidable (s.Saves key) :=
  inferInstanceAs (Decidable (_ ∧ _))

/-- A turn of the loop of `vi` -/
def viKey (hooks : ℕ → FileHooks) (saves : Except ℕ (ℕ × ℕ)) (s : Victrl) (store : FileStore)
    (key : UInt8) : Option (Victrl × FileStore) :=
  (if s.Saves key then vfsSave hooks saves s store else some (0, store)).bind
    fun (saved, store) => (s.step ⟨key, saved⟩).map fun s => (s, store)

/-- The loop of `vi`, for as many keys as come -/
def viLoop (hooks : ℕ → FileHooks) (saves : Except ℕ (ℕ × ℕ)) :
    Victrl → FileStore → List UInt8 → Option (Victrl × FileStore)
  | s, store, [] => some (s, store)
  | s, store, key :: keys =>
      if s.again then
        (viKey hooks saves s store key).bind fun next => viLoop hooks saves next.1 next.2 keys
      else some (s, store)

/-- `vi`, given what `vfs_open` returns when the file is loaded and when it is saved: what it
returns, if it does, and the files. -/
def vi (hooks : ℕ → FileHooks) (loads saves : Except ℕ (ℕ × ℕ)) (keys : List UInt8)
    (store : FileStore) : Option (Option ℕ × FileStore) :=
  (loadStored hooks loads Victrl.initVi store).bind fun (err, s, store) =>
    if err ≠ 0 then some (some err, store)
    else
      s.screenFlush.bind fun s =>
        (viLoop hooks saves s store keys).map fun (s, store) =>
          (if s.again then none else some s.err, store)

namespace Draft

/-- What is written: the text, and as far as the file was longer a newline and spaces. -/
def written (d : Draft) (loaded : ℕ) : List UInt8 :=
  (d.text ++ keyEnterN :: List.replicate loaded keySpc).take (max d.text.length loaded)

/-- What has become of the file. -/
def file (d : Draft) (old : List UInt8) : List UInt8 :=
  if d.ended = some .saved then d.written old.length else old

theorem length_written (d : Draft) (loaded : ℕ) :
    (d.written loaded).length = max d.text.length loaded := by
  rw [written, List.length_take, List.length_append, List.length_cons, List.length_replicate]
  omega

theorem key_of_ended {d : Draft} {ending : Ending} (isOver : d.ended = some ending) (key : UInt8) :
    d.key key = d := by
  rw [Draft.key, if_pos (by rw [isOver]; rfl)]

theorem foldl_key_of_ended {d : Draft} {ending : Ending} (isOver : d.ended = some ending)
    (keys : List UInt8) : keys.foldl Draft.key d = d := by
  induction keys with
  | nil => rfl
  | cons key keys ih => rw [List.foldl_cons, key_of_ended isOver, ih]

theorem ended_lastLine (d : Draft) : d.lastLine.ended = d.ended := by
  unfold lastLine
  split
  · rfl
  · split_ifs <;> rfl

theorem ended_nextLine (d : Draft) : d.nextLine.ended = d.ended := by
  unfold nextLine
  split <;> rfl

theorem ended_back (d : Draft) : d.back.ended = d.ended := by
  unfold back
  split <;> rfl

theorem ended_forth (d : Draft) : d.forth.ended = d.ended := by
  unfold forth
  split <;> rfl

/-- Only a command of the last line ends the editor. -/
theorem ended_commandKey (d : Draft) (key : UInt8) : (d.commandKey key).ended = d.ended := by
  unfold commandKey
  split_ifs
  · rfl
  · exact d.ended_back
  · exact d.ended_nextLine
  · exact d.ended_lastLine
  · rfl
  · exact d.ended_forth
  all_goals rfl

theorem ended_insertKey (d : Draft) (key : UInt8) : (d.insertKey key).ended = d.ended := by
  unfold insertKey
  split_ifs
  · rfl
  · rfl
  · exact d.ended_forth
  · rfl

theorem ended_lastLineKey (d : Draft) (typed : List UInt8) (key : UInt8) :
    (d.lastLineKey typed key).ended = some .saved ↔
      d.ended = some .saved ∧ ¬(key = keyEnterN ∧ typed = ['q'.toUInt8, '!'.toUInt8]) ∨
        key = keyEnterN ∧ typed = ['w'.toUInt8, 'q'.toUInt8] := by
  unfold lastLineKey
  have notEsc : keyEnterN ≠ keyEsc := by decide
  have notQuit : ['w'.toUInt8, 'q'.toUInt8] ≠ ['q'.toUInt8, '!'.toUInt8] := by decide
  split_ifs with isEsc isEnter isQuit isSave isDel isShort
  · simp [isEsc, notEsc.symm]
  · subst isQuit
    simp [isEnter, notQuit.symm]
  · subst isSave
    simp [isEnter]
  · simp [isQuit, isSave]
  all_goals simp [isEnter]

theorem text_lastLineKey (d : Draft) (typed : List UInt8) (key : UInt8) :
    (d.lastLineKey typed key).text = d.text := by
  unfold lastLineKey
  split_ifs <;> rfl

/-- The command that saves the text leaves it alone. -/
theorem text_key {d : Draft} {key : UInt8} (running : d.ended = none)
    (saved : (d.key key).ended = some .saved) : (d.key key).text = d.text := by
  have goesOn : ¬d.ended.isSome = true := by
    rw [running]
    exact Bool.false_ne_true
  rw [Draft.key, if_neg goesOn] at saved ⊢
  cases isMode : d.mode with
  | command =>
      rw [isMode] at saved
      rw [d.ended_commandKey, running] at saved
      exact absurd saved (Option.some_ne_none _).symm
  | insert =>
      rw [isMode] at saved
      rw [d.ended_insertKey, running] at saved
      exact absurd saved (Option.some_ne_none _).symm
  | lastLine typed => exact d.text_lastLineKey typed _

/-- A file that is not longer than the text becomes the text. -/
theorem written_of_le {d : Draft} {loaded : ℕ} (le : loaded ≤ d.text.length) :
    d.written loaded = d.text := by
  rw [written, Nat.max_eq_left le, List.take_left]

end Draft

namespace Victrl.Edits

variable {s : Victrl} {d : Draft} {loaded : ℕ}

/-- What `vfs_save` writes of the buffer. -/
theorem written_eq (edits : s.Edits d loaded) :
    (List.range (max d.text.length loaded)).map s.buffer = d.written loaded := by
  have length : d.text.length = d.left.length + d.right.length := by
    rw [Draft.text, List.length_append, List.length_reverse]
  have size := edits.size
  refine List.ext_getElem? fun i => ?_
  by_cases inside : i < max d.text.length loaded
  · rw [List.getElem?_map, List.getElem?_range inside, Option.map_some, Draft.written,
      List.getElem?_take_of_lt inside]
    have text : d.left.reverse ++ (d.right ++ [keyEnterN]) = d.text ++ [keyEnterN] :=
      (List.append_assoc ..).symm
    have spells := edits.spells
    rw [text] at spells
    rcases Nat.lt_trichotomy i d.text.length with inText | rfl | behind
    · rw [List.getElem?_append_left inText, ← spells.front i inText]
    · rw [List.getElem?_append_right Nat.le.refl, Nat.sub_self, List.getElem?_cons_zero,
        spells.head]
    · obtain ⟨j, rfl⟩ : ∃ j, i = d.text.length + j + 1 := ⟨i - d.text.length - 1, by omega⟩
      have isSpace := edits.spaces (d.text.length + j + 1) (by omega) (by omega)
      rw [List.getElem?_append_right (by omega),
        show d.text.length + j + 1 - d.text.length = j + 1 by omega, List.getElem?_cons_succ,
        List.getElem?_replicate_of_lt (by omega), isSpace]
  · rw [List.getElem?_eq_none (by rw [List.length_map, List.length_range]; omega),
      List.getElem?_eq_none (by rw [Draft.length_written]; omega)]

/-- The command that saves the file ends the editor. -/
theorem saves_iff (edits : s.Edits d loaded) (running : d.ended = none) (key : UInt8) :
    s.Saves key ↔ (d.key key).ended = some .saved := by
  have stands := edits.mode
  have goesOn : ¬d.ended.isSome = true := by
    rw [running]
    exact Bool.false_ne_true
  rw [Draft.key, if_neg goesOn]
  cases isMode : d.mode with
  | command =>
      rw [isMode] at stands
      have isCommand : s.mode = 0 := stands
      simp [Victrl.Saves, isCommand, Draft.ended_commandKey, running]
  | insert =>
      rw [isMode] at stands
      have isInsert : s.mode = 1 := stands
      simp [Victrl.Saves, isInsert, Draft.ended_insertKey, running]
  | lastLine typed =>
      rw [isMode] at stands
      rcases stands with ⟨mode, instLen, -, spells⟩
      have typedSave := spells_pair spells 'w'.toUInt8 'q'.toUInt8
      rw [← instLen] at typedSave
      rw [Draft.ended_lastLineKey, ← typedSave, Victrl.Saves]
      simp [mode, running]

end Victrl.Edits

/-! ## A session -/

section

variable {ground : FileGround} {ino : ℕ}

/-- What a session needs of the files: the file is in order and its pages are in the cache, which
has room for what may be written. -/
structure Ready (ground : FileGround) (ino notes : ℕ) (store : FileStore) : Prop where
  backed : store.Backed ground
  isListed : store.cache.Listed ino
  isNoted : ground.Notes ino notes
  fits : (bufferSize - 2) / (ground.hooks ino).iBlksize < ground.capacity ino
  room : store.cache.cSize + notes + ((bufferSize - 2) / (ground.hooks ino).iBlksize + 1) ≤
    cacheCapacity

/-- Saving writes the text over the file. -/
theorem vfsSave_spec (good : ground.Good) {notes : ℕ} {store : FileStore}
    (isReady : Ready ground ino notes store) {s : Victrl} {d : Draft}
    (edits : s.Edits d (store.bytes ground ino).length)
    (nonempty : 0 < (store.bytes ground ino).length)
    (small : (store.bytes ground ino).length < bufferSize) (filp : ℕ) :
    ∃ closed, vfsSave ground.hooks (.ok (filp, ino)) s store = some (0, closed) ∧
      closed.Backed ground ∧
      closed.view ground = ⟨Function.update (store.bytes ground) ino
        (d.written (store.bytes ground ino).length), Function.update store.files filp none⟩ := by
  have length : d.text.length = d.left.length + d.right.length := by
    rw [Draft.text, List.length_append, List.length_reverse]
  have writesize : (if s.oldSize < sub32 s.size 1 then sub32 s.size 1 else s.oldSize) =
      max d.text.length (store.bytes ground ino).length := by
    rw [edits.oldSize, edits.last, ← length]
    split_ifs <;> omega
  have fits := edits.fits
  have size := edits.size
  have few : max d.text.length (store.bytes ground ino).length - 1 ≤ bufferSize - 2 := by omega
  have pages := Nat.div_le_div_right (c := (ground.hooks ino).iBlksize) few
  have inRange : max d.text.length (store.bytes ground ino).length < 4294967296 := by
    unfold bufferSize at fits small
    omega
  let opened : FileStore :=
    { store with files := Function.update store.files filp (some (dentryOpen ino 1)) }
  have some_ := Nat.lt_of_lt_of_le nonempty (Nat.le_max_right d.text.length _)
  rcases FileStore.write_whole good isReady.backed some_ inRange
    (Nat.lt_of_le_of_lt pages isReady.fits) isReady.isNoted
    (Nat.le_trans (Nat.add_le_add_left (Nat.succ_le_succ pages) _) isReady.room)
    isReady.isListed (rfl : opened = _) s.buffer with ⟨f, closed, ran, stepped, backed, viewed⟩
  refine ⟨closed, ?_, backed, ?_⟩
  · simp only [vfsSave, writesize]
    rw [ran, Option.bind_some, stepped, Option.map_some]
  · rw [viewed, edits.written_eq]
    have whole : ByteFiles.writeAt (store.bytes ground ino) 0
        (d.written (store.bytes ground ino).length) =
          d.written (store.bytes ground ino).length := by
      rw [ByteFiles.writeAt, List.take_zero, List.nil_append, Nat.zero_add, Draft.length_written,
        List.drop_eq_nil_of_le (Nat.le_max_right _ _), List.append_nil]
    rw [whole]

/-- A key makes of the file what it makes of the draft. -/
theorem viKey_spec (good : ground.Good) {notes filp : ℕ} {store : FileStore}
    (isReady : Ready ground ino notes store) (isFree : store.files filp = none)
    (nonempty : 0 < (store.bytes ground ino).length)
    (small : (store.bytes ground ino).length < bufferSize) {s : Victrl} {d : Draft}
    (edits : s.Edits d (store.bytes ground ino).length) (running : d.ended = none) {key : UInt8}
    (hasRoom : d.HasRoom key) :
    ∃ s' next, viKey ground.hooks (.ok (filp, ino)) s store key = some (s', next) ∧
      s'.Edits (d.key key) (store.bytes ground ino).length ∧ next.Backed ground ∧
      next.view ground = ⟨Function.update (store.bytes ground) ino
        ((d.key key).file (store.bytes ground ino)), store.files⟩ ∧
      ((d.key key).ended = none → next = store) := by
  rcases edits.step running hasRoom with ⟨s', stepped, edits'⟩
  by_cases saves : s.Saves key
  · have isSaved := (edits.saves_iff running key).mp saves
    rcases vfsSave_spec good isReady edits nonempty small filp with ⟨closed, saved, backed, viewed⟩
    refine ⟨s', closed, ?_, edits', backed, ?_, fun isNone => ?_⟩
    · rw [viKey, if_pos saves, saved, Option.bind_some]
      simp only [stepped, Option.map_some]
    · rw [viewed, ← isFree, Function.update_eq_self, Draft.file, if_pos isSaved, Draft.written,
        Draft.written, Draft.text_key running isSaved]
    · exact absurd (isSaved.symm.trans isNone) (Option.some_ne_none _)
  · refine ⟨s', store, ?_, edits', isReady.backed, ?_, fun _ => rfl⟩
    · rw [viKey, if_neg saves, Option.bind_some]
      simp only [stepped, Option.map_some]
    · rw [Draft.file, if_neg (mt (edits.saves_iff running key).mpr saves), Function.update_eq_self]
      rfl

/-- The keys make of the file what they make of the draft. -/
theorem viLoop_spec (good : ground.Good) {notes filp : ℕ} {store : FileStore}
    (isReady : Ready ground ino notes store) (isFree : store.files filp = none)
    (nonempty : 0 < (store.bytes ground ino).length)
    (small : (store.bytes ground ino).length < bufferSize) {keys : List UInt8} {s : Victrl}
    {d : Draft} (edits : s.Edits d (store.bytes ground ino).length) (running : d.ended = none)
    (haveRoom : d.HaveRoom keys) :
    ∃ s' final, viLoop ground.hooks (.ok (filp, ino)) s store keys = some (s', final) ∧
      s'.again = (keys.foldl Draft.key d).ended.isNone ∧ s'.err = 0 ∧ final.Backed ground ∧
      final.view ground = ⟨Function.update (store.bytes ground) ino
        ((keys.foldl Draft.key d).file (store.bytes ground ino)), store.files⟩ := by
  induction keys generalizing s d with
  | nil =>
      refine ⟨s, store, rfl, edits.again, edits.err, isReady.backed, ?_⟩
      have notSaved : d.ended ≠ some .saved := by
        rw [running]
        exact (Option.some_ne_none _).symm
      rw [List.foldl_nil, Draft.file, if_neg notSaved, Function.update_eq_self]
      rfl
  | cons key keys ih =>
      have again : s.again = true := by
        rw [edits.again, running]
        rfl
      rcases viKey_spec good isReady isFree nonempty small edits running haveRoom.1 with
        ⟨s', next, ran, edits', backed, viewed, same⟩
      rw [viLoop, if_pos again, ran, Option.bind_some, List.foldl_cons]
      cases isEnded : (d.key key).ended with
      | none =>
          rw [same isEnded]
          exact ih edits' isEnded haveRoom.2
      | some ending =>
          have stopped : s'.again = false := by
            rw [edits'.again, isEnded]
            rfl
          have stays : viLoop ground.hooks (.ok (filp, ino)) s' next keys = some (s', next) := by
            cases keys with
            | nil => rfl
            | cons key keys => rw [viLoop, if_neg (by rw [stopped]; exact Bool.false_ne_true)]
          rw [Draft.foldl_key_of_ended isEnded]
          exact ⟨s', next, stays, edits'.again, edits'.err, backed, viewed⟩

/-- The state of `vi` with a file in its buffer. -/
def filled (file : List UInt8) : Victrl :=
  { Victrl.initVi with
    buffer := Function.update (ByteFiles.fillBuffer Victrl.initVi.buffer file) file.length keyEnterN
    oldSize := file.length
    size := file.length + 1 }

theorem filled_edits {file : List UInt8} (small : file.length < bufferSize) :
    (filled file).Edits (.ofFile file) file.length := by
  refine ⟨fun i lt => ?_, (congrArg (· + 1) (Nat.zero_add _)).symm, rfl, small, Nat.zero_le _, rfl,
    rfl, rfl, rfl, fun i lower upper => absurd lower (Nat.not_le.mpr (Nat.lt_succ_of_le upper))⟩
  simp only [Draft.ofFile, List.reverse_nil, List.nil_append, List.length_append,
    List.length_singleton] at lt ⊢
  by_cases isLast : i = file.length
  · subst isLast
    simp only [List.getElem?_concat_length, filled, Function.update_self]
  · have inFile : i < file.length := by omega
    simp only [List.getElem?_append_left inFile, filled, Function.update_of_ne isLast,
      ByteFiles.fillBuffer, List.getElem?_eq_getElem inFile, Option.getD_some]

/-- A file as it is loaded -/
theorem loadStored_spec (good : ground.Good) {store : FileStore} (backed : store.Backed ground)
    (nonempty : 0 < (store.bytes ground ino).length)
    (small : (store.bytes ground ino).length < bufferSize)
    (room : store.cache.cSize + (store.inodes ino).aPage.length ≤ cacheCapacity)
    (listed : store.cache.Listed ino) (filp : ℕ) :
    ∃ closed, loadStored ground.hooks (.ok (filp, ino)) Victrl.initVi store =
        some (0, filled (store.bytes ground ino), closed) ∧
      closed.Backed ground ∧
      closed.view ground = ⟨store.bytes ground, Function.update store.files filp none⟩ ∧
      closed.cache.Listed ino ∧
      closed.cache.cSize ≤ store.cache.cSize + (store.inodes ino).aPage.length := by
  have length : (store.bytes ground ino).length = (store.inodes ino).iSize :=
    FileStore.length_bytes store ino
  rw [length] at nonempty small
  have inRange : (store.inodes ino).iSize < 4294967296 := by
    unfold bufferSize at small
    omega
  let opened : FileStore :=
    { store with files := Function.update store.files filp (some (dentryOpen ino 0)) }
  rcases FileStore.read_whole good backed nonempty inRange room listed (rfl : opened = _)
    Victrl.initVi.buffer with ⟨f, closed, ran, stepped, backedClosed, viewed, listed', few⟩
  refine ⟨closed, ?_, backedClosed, viewed, listed', few⟩
  simp only [loadStored, if_neg (Nat.not_le.mpr small)]
  rw [ran, Option.bind_some]
  simp only [Nat.lt_irrefl, if_false]
  rw [stepped, Option.map_some, filled, length]

/-- Whoever edits a file with `vi` edits its text: the keys make of the file what they make of the
draft, and every other file has the bytes it had. -/
theorem vi_edits (good : ground.Good) {store : FileStore} (backed : store.Backed ground)
    (nonempty : 0 < (store.bytes ground ino).length)
    (small : (store.bytes ground ino).length < bufferSize) {notes filp filp' : ℕ}
    (isFree : store.files filp = none) (isFree' : store.files filp' = none)
    (listed : store.cache.Listed ino) (isNoted : ground.Notes ino notes)
    (fits : (bufferSize - 2) / (ground.hooks ino).iBlksize < ground.capacity ino)
    (room : store.cache.cSize + (store.inodes ino).aPage.length + notes +
      ((bufferSize - 2) / (ground.hooks ino).iBlksize + 1) ≤ cacheCapacity)
    {keys : List UInt8} (haveRoom : (Draft.ofFile (store.bytes ground ino)).HaveRoom keys) :
    ∃ final, vi ground.hooks (.ok (filp, ino)) (.ok (filp', ino)) keys store =
        some ((keys.foldl Draft.key (.ofFile (store.bytes ground ino))).ended.map fun _ => 0,
          final) ∧
      final.Backed ground ∧
      final.view ground = ⟨Function.update (store.bytes ground) ino
        ((keys.foldl Draft.key (.ofFile (store.bytes ground ino))).file (store.bytes ground ino)),
        store.files⟩ := by
  have roomRead : store.cache.cSize + (store.inodes ino).aPage.length ≤ cacheCapacity :=
    Nat.le_of_add_right_le (Nat.le_of_add_right_le room)
  rcases loadStored_spec good backed nonempty small roomRead listed filp with
    ⟨closed, loaded, backedClosed, viewed, listed', few⟩
  have sameBytes : closed.bytes ground = store.bytes ground := congrArg ByteFiles.bytes viewed
  have sameFiles : closed.files = store.files := by
    have files := congrArg ByteFiles.files viewed
    rw [← isFree, Function.update_eq_self] at files
    exact files
  have isReady : Ready ground ino notes closed := by
    refine ⟨backedClosed, listed', isNoted, fits, Nat.le_trans ?_ room⟩
    exact Nat.add_le_add_right (Nat.add_le_add_right few _) _
  rcases (filled_edits small).screenFlush with ⟨s, flushed, edits⟩
  rw [← sameBytes] at nonempty small loaded flushed edits haveRoom ⊢
  rw [← sameFiles] at isFree' ⊢
  rcases viLoop_spec good isReady isFree' nonempty small edits rfl haveRoom with
    ⟨s', final, ran, again, err, backed', viewed'⟩
  refine ⟨final, ?_, backed', viewed'⟩
  rw [vi, loaded, Option.bind_some]
  simp only [ne_eq, not_true_eq_false, if_false]
  rw [flushed, Option.bind_some, ran, Option.map_some]
  simp only [again, err]
  cases (keys.foldl Draft.key (.ofFile (closed.bytes ground ino))).ended <;> rfl

/-- Two files that may have a block each, which has room for any text. -/
def bigBlocks : FileGround :=
  { FileStore.twoFiles with
    hooks := fun ino => { FileStore.twoFiles.hooks ino with iBlksize := 4096 } }

theorem good_bigBlocks : bigBlocks.Good :=
  ⟨fun _ => (by decide : 0 < 4096), FileStore.good_twoFiles.numbers, FileStore.good_twoFiles.apart,
    FileStore.good_twoFiles.creates, fun _ cache apart => ⟨cache, rfl, fun j =>
      ⟨apart.sound, rfl, fun _ _ _ => id, apart.owned j⟩⟩⟩

/-- A character is put in front of the file, and the file is saved. -/
def putInFront : List UInt8 :=
  ['i'.toUInt8, 66, keyEsc, ':'.toUInt8, 'w'.toUInt8, 'q'.toUInt8, keyEnterN]

theorem vi_edits_putInFront : ∃ final,
    vi bigBlocks.hooks (.ok (7, 0)) (.ok (8, 0)) putInFront FileStore.oneFile =
      some (some 0, final) ∧
    final.bytes bigBlocks 0 = [66, 65, 65, 65] := by
  have isFile : FileStore.oneFile.bytes bigBlocks 0 = [65, 65, 65] := rfl
  have isNoted : bigBlocks.Notes 0 0 := by
    rintro cache cache' _ _ listed wrote
    cases wrote
    exact ⟨listed, Nat.le.refl⟩
  have haveRoom : (Draft.ofFile (FileStore.oneFile.bytes bigBlocks 0)).HaveRoom putInFront := by
    rw [isFile]
    decide +kernel
  have isText : (putInFront.foldl Draft.key
      (.ofFile (FileStore.oneFile.bytes bigBlocks 0))).ended = some .saved ∧
        (putInFront.foldl Draft.key (.ofFile (FileStore.oneFile.bytes bigBlocks 0))).file
          (FileStore.oneFile.bytes bigBlocks 0) = [66, 65, 65, 65] := by
    rw [isFile]
    decide +kernel
  have backed : FileStore.oneFile.Backed bigBlocks :=
    FileStore.backed_oneFile fun _ => (by decide : 3 ≤ 4096)
  have isFree (filp : ℕ) : FileStore.oneFile.files filp = none := rfl
  rcases vi_edits good_bigBlocks backed (by decide) (by decide) (isFree 7) (isFree 8)
    (fun q mem => absurd mem List.not_mem_nil) isNoted (by decide) (by decide) haveRoom with
    ⟨final, ran, _, viewed⟩
  rw [isText.1] at ran
  refine ⟨final, ran, ?_⟩
  rw [isText.2] at viewed
  have bytes : final.bytes bigBlocks 0 =
      Function.update (FileStore.oneFile.bytes bigBlocks) 0 [66, 65, 65, 65] 0 :=
    congrFun (congrArg ByteFiles.bytes viewed) 0
  rw [bytes, Function.update_self]

end

end Ninix.Vi
