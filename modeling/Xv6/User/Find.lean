import Xv6.Fs.Names

/-!
# `find` (`user/find.c`)

`find path target` walks the directory tree below `path` and prints every path whose last
component is `target`.  `help(path, target)` opens `path`; for a file or a device it compares
the last component; for a directory it reads the entries one `struct dirent` at a time and, for
each live entry other than `.` and `..`, builds `path/name` in a 512-byte buffer, `stat`s it,
prints it when its name is `target`, and descends into it when it is a directory.

The file system is the disk of `Xv6.Fs`, which `find` only reads: `open` looks a path up with
`Disk.walk` (what `namei` computes, `namei_walk`), refuses a path of `MAXPATH` bytes or more as
`argstr` does, and needs a free descriptor.  Each level of `help` holds its directory open while
it runs, and `stat` opens the entry for a moment, so `help` recurses on the number of free
descriptors.

* `found_length`: every path `find` prints was opened, so it is shorter than `MAXPATH`;
* `find_misses_long_path`: a file named `t` ten directories below `.`, at a path of 138 bytes,
  is never printed, however many descriptors are free.
-/

namespace Xv6.Find

open Fs

/-- What `help` writes: a path found, or one of its messages. -/
inductive Out
  | found (path : List Char)
  | pathTooLong
  | cannotStat (path : List Char)
  | cannotOpen (path : List Char)
  deriving DecidableEq, Repr

/-- The descriptor each is written to: `printf` writes to `1`, `fprintf(2, …)` to `2`. -/
def Out.fd : Out → ℕ
  | .cannotOpen _ => 2
  | _ => 1

/-- The bytes written. -/
def Out.text : Out → List Char
  | .found p => p ++ ['\n']
  | .pathTooLong => "ls: path too long\n".toList
  | .cannotStat p => "ls: cannot stat ".toList ++ p ++ ['\n']
  | .cannotOpen p => "ls: cannot open ".toList ++ p ++ ['\n']

/-- `fmtname`: the bytes after the last `/`.  When they are fewer than `DIRSIZ` the source copies
them into its static buffer, otherwise it returns them in place; the string is the same. -/
def fmtname (path : List Char) : List Char := (path.reverse.takeWhile (· ≠ '/')).reverse

/-- The name of an entry as `memmove(p, de.name, DIRSIZ); p[DIRSIZ] = 0` leaves it in the
buffer: its `DIRSIZ` bytes up to the first NUL. -/
def entryName (de : Dirent) : List Char := (de.name.take dirsiz).takeWhile (· ≠ '\x00')

/-- `open(path, O_RDONLY)` as `sys_open` answers it, a descriptor being free: the inode the path
names, unless the path has `MAXPATH` bytes or more or names a device with no driver. -/
def openIno (d : Disk) (cwd : ℕ) (path : List Char) : Option ℕ :=
  if maxPath ≤ path.length then none
  else match d.walk (startOf cwd path) (components path) with
    | none => none
    | some ip =>
      if (d.inode ip).type = .device ∧ ((d.inode ip).major < 0 ∨ nDev ≤ (d.inode ip).major)
      then none else some ip

/-- `stat(path)`, with `free` descriptors free: `open`, `fstat` and `close`. -/
def stat (d : Disk) (cwd free : ℕ) (path : List Char) : Option IType :=
  if free = 0 then none else (openIno d cwd path).map fun ip => (d.inode ip).type

/-- `help(path, target)` with `free` descriptors free. -/
def help (d : Disk) (cwd : ℕ) (target : List Char) : ℕ → List Char → List Out
  | 0, path => [.cannotOpen path]
  | n + 1, path =>
    match openIno d cwd path with
    | none => [.cannotOpen path]
    | some ip =>
      match (d.inode ip).type with
      | .device | .file => if fmtname path = target then [.found path] else []
      | .free => []
      | .dir =>
        if 512 < path.length + 1 + dirsiz + 1 then [.pathTooLong]
        else (List.range (d.nent ip)).flatMap fun k =>
          let de := d.dir ip k
          let buf := path ++ '/' :: entryName de
          if de.inum = 0 ∨ entryName de = ['.'] ∨ entryName de = ['.', '.'] then []
          else match stat d cwd n buf with
            | none => [.cannotStat buf]
            | some t =>
              (if fmtname buf = target then [.found buf] else []) ++
                if t = .dir then help d cwd target n buf else []

/-! ### What `find` prints -/

section Found

variable {d : Disk} {cwd : ℕ} {target : List Char}

theorem length_of_openIno {path : List Char} {ip : ℕ} (h : openIno d cwd path = some ip) :
    path.length < maxPath := by
  unfold openIno at h
  split_ifs at h with hlen
  exact Nat.lt_of_not_le hlen

theorem length_of_stat {free : ℕ} {path : List Char} {t : IType}
    (h : stat d cwd free path = some t) : path.length < maxPath := by
  unfold stat at h
  split_ifs at h
  obtain ⟨ip, hip, -⟩ := Option.map_eq_some_iff.1 h
  exact length_of_openIno hip

/-- A path found by one level of `help` is its own path, opened, or an entry's path, `stat`ed,
or found below that entry. -/
theorem found_mem_help {n : ℕ} {path s : List Char}
    (h : Out.found s ∈ help d cwd target (n + 1) path) :
    (∃ ip, openIno d cwd path = some ip ∧ s = path) ∨
      ∃ buf t, stat d cwd n buf = some t ∧ (s = buf ∨ Out.found s ∈ help d cwd target n buf) := by
  unfold help at h
  split at h
  · simp at h
  · rename_i ip hip
    split at h
    · split_ifs at h
      · exact .inl ⟨ip, hip, by simpa using h⟩
      · cases h
    · split_ifs at h
      · exact .inl ⟨ip, hip, by simpa using h⟩
      · cases h
    · cases h
    · split_ifs at h
      · simp at h
      · obtain ⟨k, -, hk⟩ := List.mem_flatMap.1 h
        dsimp only at hk
        split at hk
        · cases hk
        · split at hk
          · simp at hk
          · rename_i t ht
            refine .inr ⟨_, t, ht, ?_⟩
            rcases List.mem_append.1 hk with hk | hk
            · split at hk
              · exact .inl (by simpa using hk)
              · cases hk
            · split at hk
              · exact .inr hk
              · cases hk

/-- Every path `help` prints was opened, by `help` itself or by `stat`, so it is shorter than
`MAXPATH`. -/
theorem found_length : ∀ (free : ℕ) (path s : List Char),
    Out.found s ∈ help d cwd target free path → s.length < maxPath
  | 0, path, s, h => by simp [help] at h
  | n + 1, path, s, h => by
    rcases found_mem_help h with ⟨ip, hip, rfl⟩ | ⟨buf, t, ht, rfl | hs⟩
    · exact length_of_openIno hip
    · exact length_of_stat ht
    · exact found_length n buf s hs

end Found

/-- Ten directories in a chain from the root (inode `1`): the first nine hold the next under a
name of `DIRSIZ` bytes, and the last holds the file `t` (inode `11`). -/
def deep : Disk where
  used _ := true
  inode i :=
    if i = 11 then ⟨.file, 0, 1, 0, fun _ => 0⟩
    else if 1 ≤ i ∧ i ≤ 10 then ⟨.dir, 0, 1, 3 * direntSize, fun _ => 0⟩
    else ⟨.free, 0, 0, 0, fun _ => 0⟩
  ind _ _ := 0
  dir i k :=
    if k = 0 then ⟨i, ['.']⟩
    else if k = 1 then ⟨max (i - 1) 1, ['.', '.']⟩
    else ⟨i + 1, if i = 10 then ['t'] else List.replicate dirsiz 'a'⟩

/-- The path of `t` from `.`: nine names of `DIRSIZ` bytes and `t`, 138 bytes. -/
def deepPath : List Char :=
  '.' :: (List.replicate 9 ('/' :: List.replicate dirsiz 'a')).flatten ++ ['/', 't']

/-- `find . t` in the root of `deep`: `.` names a directory and `deepPath` a file `t` below it,
which `find` never prints, however many descriptors are free. -/
theorem find_misses_long_path :
    deep.walk rootIno (components ['.']) = some rootIno ∧ (deep.inode rootIno).type = .dir ∧
      deep.walk rootIno (components deepPath) = some 11 ∧ (deep.inode 11).type = .file ∧
      fmtname deepPath = ['t'] ∧
      ∀ free, Out.found deepPath ∉ help deep rootIno ['t'] free ['.'] :=
  ⟨by decide, by decide, by decide +kernel, by decide, by decide +kernel,
    fun free h => absurd (found_length free _ _ h) (by decide +kernel)⟩

end Xv6.Find
