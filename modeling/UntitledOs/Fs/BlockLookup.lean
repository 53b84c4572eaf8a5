import UntitledOs.Fs.BlockMap

/-!
# Looking up a data block

The layout of ext2 reaches a data block from one of the pointers of the inode by
the digits of its index in base `D`, the pointers in a block.  The reader and the
writer of a data block walk the same path, but with indices of their own for a
triply indirect block, and the writer reads the pointer blocks into the buffer
that holds the data.
-/

namespace UntitledOs.Fs

open UntitledOs.Lib

variable {sb : Superblock} {d d' inode buf : Bytes} {is : List Nat} {n k r p bind i : Nat}

section Layout

/-- The `k` digits of `r` in base `n`, the most significant one first. -/
def digits (n : Nat) : Nat → Nat → List Nat
  | 0, _ => []
  | k + 1, r => r / n ^ k :: digits n k (r % n ^ k)

/-- How many pointer blocks stand above logical block `bind`, and its index under them. -/
def indirection (n bind : Nat) : Nat × Nat :=
  if bind < 12 + n then (1, bind - 12)
  else if bind < 12 + n + n * n then (2, bind - 12 - n)
  else (3, bind - 12 - n - n * n)

/-- The pointer of the inode that `k` pointer blocks hang under. -/
def rootPointer (inode : Bytes) : Nat → Nat
  | 1 => sibp inode
  | 2 => dibp inode
  | _ => tibp inode

/-- The pointer reached from `p` by the indices `is`, 0 if a pointer on the way is 0. -/
def follow (sb : Superblock) (d : Bytes) : List Nat → Nat → Nat
  | [], p => p
  | i :: is, p => if p = 0 then 0 else follow sb d is (diskWord sb d p i)

/-- The block that the layout gives to logical block `bind`. -/
def layoutPointer (sb : Superblock) (d inode : Bytes) (bind : Nat) : Nat :=
  if bind < 12 then dbp inode bind
  else
    let place := indirection sb.dbpPerBlock bind
    follow sb d (digits sb.dbpPerBlock place.1 place.2) (rootPointer inode place.1)

end Layout

section Walk

theorem readBlock_of_lt (b : Nat) (hi : i < sb.blockSize) :
    readBlock sb d b buf i = d (blockStart sb b + i) := by
  rw [← blockSectors_mul] at hi
  have hcopy := @copyTo_add buf (fun i => d (blockStart sb b + i)) 0 _ i hi
  rwa [Nat.zero_add] at hcopy

/-- The indices that `fs_ext2_get_inode_pointer` computes. -/
def walkIndices (n : Nat) : Nat × Nat → List Nat
  | (1, r) => [r]
  | (2, r) => [r / n, r % n]
  | (_, r) => [r / n * n, r / n, r % n]

/-- The walk of the reader from pointer `p`, with what it leaves in the buffer. -/
def walk (sb : Superblock) (d : Bytes) : List Nat → Nat → Bytes → Nat × Bytes
  | [], p, buf => (p, buf)
  | i :: is, p, buf =>
      if p = 0 then (0, buf)
      else walk sb d is (word (readBlock sb d p buf) i) (readBlock sb d p buf)

/-- The pointer blocks that the walk reads, with the index it uses in each. -/
def visited (sb : Superblock) (d : Bytes) : List Nat → Nat → Bytes → List (Nat × Nat)
  | [], _, _ => []
  | i :: is, p, buf =>
      if p = 0 then []
      else (p, i) :: visited sb d is (word (readBlock sb d p buf) i) (readBlock sb d p buf)

/-- What `fs_ext2_get_inode_pointer` visits. -/
def lookupVisits (sb : Superblock) (d inode : Bytes) (bind : Nat) (buf : Bytes) : List (Nat × Nat) :=
  if bind < 12 then []
  else
    let place := indirection sb.dbpPerBlock bind
    visited sb d (walkIndices sb.dbpPerBlock place) (rootPointer inode place.1) buf

theorem getInodePointer_direct (h : bind < 12) :
    getInodePointer sb d inode bind buf = (dbp inode bind, buf) := by
  simp only [getInodePointer]
  rw [if_pos h]

theorem getInodePointer_eq (h : ¬ bind < 12) :
    getInodePointer sb d inode bind buf =
      walk sb d (walkIndices sb.dbpPerBlock (indirection sb.dbpPerBlock bind))
        (rootPointer inode (indirection sb.dbpPerBlock bind).1) buf := by
  simp only [getInodePointer, indirection]
  rw [if_neg h]
  split
  · rfl
  split
  · rfl
  · rfl

/-- The walk finds what the layout says, as long as its indices stay in the blocks. -/
theorem walk_follow (h : ∀ i ∈ is, i < sb.dbpPerBlock) (p : Nat) (buf : Bytes) :
    (walk sb d is p buf).1 = follow sb d is p := by
  induction is generalizing p buf with
  | nil => rfl
  | cons i is ih =>
      have hword := @word_readBlock sb d buf p i (h i (by simp))
      unfold walk follow
      split
      · rfl
      · rw [hword]
        exact ih (fun j hj => h j (by simp [hj])) _ _

theorem walk_congr (h : ∀ v ∈ visited sb d is p buf, ∀ b, readBlock sb d' v.1 b = readBlock sb d v.1 b) :
    walk sb d' is p buf = walk sb d is p buf := by
  induction is generalizing p buf with
  | nil => rfl
  | cons i is ih =>
      unfold walk
      unfold visited at h
      split
      · rfl
      · rename_i hp
        rw [if_neg hp] at h
        rw [h (p, i) List.mem_cons_self buf]
        exact ih fun v hv => h v (List.mem_cons_of_mem _ hv)

theorem walk_untouched (h : visited sb d is p buf = []) : (walk sb d is p buf).2 = buf := by
  cases is with
  | nil => rfl
  | cons i is =>
      unfold visited at h
      unfold walk
      split at h
      · rename_i hp
        rw [if_pos hp]
      · cases h

theorem walk_buffer {v : Nat × Nat} (h : (visited sb d is p buf).getLast? = some v)
    (hi : i < sb.blockSize) : (walk sb d is p buf).2 i = d (blockStart sb v.1 + i) := by
  induction is generalizing p buf with
  | nil => cases h
  | cons j is ih =>
      unfold visited at h
      unfold walk
      split at h
      · cases h
      rename_i hp
      rw [if_neg hp]
      cases hrest : visited sb d is (word (readBlock sb d p buf) j) (readBlock sb d p buf) with
      | nil =>
          rw [hrest] at h
          obtain rfl : (p, j) = v := Option.some.inj h
          rw [walk_untouched hrest]
          exact readBlock_of_lt p hi
      | cons w rest =>
          rw [hrest, List.getLast?_cons_cons, ← hrest] at h
          exact ih h

/-- With indices that stay in the blocks the walk visits pointer blocks of the inode. -/
theorem visited_pointerBlock (h : ∀ i ∈ is, i < sb.dbpPerBlock)
    (hp : p ≠ 0 → FileBlockAt sb d inode is.length p) {v : Nat × Nat}
    (hv : v ∈ visited sb d is p buf) : PointerBlock sb d inode v.1 := by
  induction is generalizing p buf with
  | nil => cases hv
  | cons i is ih =>
      have hi := h i (by simp)
      unfold visited at hv
      split at hv
      · cases hv
      rename_i hne
      have hat := hp hne
      rcases List.mem_cons.mp hv with rfl | hv
      · exact ⟨is.length, hat⟩
      · rw [word_readBlock p hi] at hv
        exact ih (fun j hj => h j (by simp [hj])) (fun hw => hat.snoc hi hw) hv

theorem visited_index (h : ∀ i ∈ is, i < sb.dbpPerBlock) {v : Nat × Nat}
    (hv : v ∈ visited sb d is p buf) : v.2 < sb.dbpPerBlock := by
  induction is generalizing p buf with
  | nil => cases hv
  | cons i is ih =>
      unfold visited at hv
      split at hv
      · cases hv
      · rcases List.mem_cons.mp hv with rfl | hv
        · exact h i (by simp)
        · exact ih (fun j hj => h j (by simp [hj])) hv

end Walk

section Lookup

/-- The index under a triply indirect block, if there is one, is below `n`. -/
def Addressed (n bind : Nat) : Prop := bind < 12 + n + n ^ 2 + n

/-- Where the indices of the reader are the digits of the layout. -/
theorem walkIndices_eq_digits (hlow : ¬ bind < 12) (h : Addressed n bind) :
    walkIndices n (indirection n bind) =
        digits n (indirection n bind).1 (indirection n bind).2 ∧
      ∀ i ∈ walkIndices n (indirection n bind), i < n := by
  unfold Addressed at h
  have hsq : n ^ 2 = n * n := Nat.pow_two n
  rw [hsq] at h
  have hpos : 0 < n := by
    rcases Nat.eq_zero_or_pos n with rfl | hpos
    · omega
    · exact hpos
  unfold indirection
  split
  · simp only [walkIndices, digits, Nat.pow_zero, Nat.div_one]
    exact ⟨trivial, by simp; omega⟩
  split
  · have hdiv : (bind - 12 - n) / n < n := Nat.div_lt_of_lt_mul (by omega)
    have hmod := Nat.mod_lt (bind - 12 - n) hpos
    simp only [walkIndices, digits, Nat.pow_zero, Nat.pow_one, Nat.div_one]
    exact ⟨trivial, by simp [hdiv, hmod]⟩
  · -- below `n` the first two digits are 0
    have hr : bind - 12 - n - n * n < n := by omega
    have hle : n ≤ n * n := Nat.le_mul_self n
    simp only [walkIndices, digits, Nat.pow_zero, Nat.pow_one, Nat.div_one, hsq]
    rw [Nat.div_eq_of_lt hr, Nat.div_eq_of_lt (show _ < n * n by omega),
      Nat.mod_eq_of_lt (show bind - 12 - n - n * n < n * n by omega), Nat.mod_eq_of_lt hr,
      Nat.div_eq_of_lt hr]
    exact ⟨by simp, by simp [hpos, hr]⟩

/-- The reader gives the block of the layout, with indices inside of the pointer blocks. -/
structure LooksUp (sb : Superblock) (d inode : Bytes) (bind : Nat) (buf : Bytes) : Prop where
  pointer : (getInodePointer sb d inode bind buf).1 = layoutPointer sb d inode bind
  inBlock : ∀ v ∈ lookupVisits sb d inode bind buf, v.2 < sb.dbpPerBlock

theorem Addressed.looksUp (h : Addressed sb.dbpPerBlock bind) : LooksUp sb d inode bind buf := by
  by_cases hlow : bind < 12
  · refine ⟨?_, ?_⟩
    · rw [getInodePointer_direct hlow, layoutPointer, if_pos hlow]
    · rw [lookupVisits, if_pos hlow]
      simp
  obtain ⟨hdigits, hlt⟩ := walkIndices_eq_digits hlow h
  refine ⟨?_, fun v hv => ?_⟩
  · rw [getInodePointer_eq hlow, walk_follow hlt, layoutPointer, if_neg hlow, hdigits]
  · rw [lookupVisits, if_neg hlow] at hv
    exact visited_index hlt hv

theorem looksUp_of_null (hlow : ¬ bind < 12)
    (hnull : rootPointer inode (indirection sb.dbpPerBlock bind).1 = 0) :
    LooksUp sb d inode bind buf := by
  refine ⟨?_, ?_⟩
  · rw [getInodePointer_eq hlow, layoutPointer, if_neg hlow]
    dsimp only
    rw [hnull]
    cases walkIndices sb.dbpPerBlock (indirection sb.dbpPerBlock bind) <;>
      cases digits sb.dbpPerBlock (indirection sb.dbpPerBlock bind).1
        (indirection sb.dbpPerBlock bind).2 <;> rfl
  · rw [lookupVisits, if_neg hlow]
    dsimp only
    rw [hnull]
    cases walkIndices sb.dbpPerBlock (indirection sb.dbpPerBlock bind) <;> simp [visited]

theorem indirection_of_not_addressed (h : ¬ Addressed n bind) :
    indirection n bind = (3, bind - 12 - n - n * n) ∧ n ≤ bind - 12 - n - n * n := by
  unfold Addressed at h
  rw [Nat.pow_two] at h
  unfold indirection
  rw [if_neg (by omega), if_neg (by omega)]
  exact ⟨rfl, by omega⟩

theorem not_addressed_visits (h : ¬ Addressed sb.dbpPerBlock bind) (hn : 0 < sb.dbpPerBlock)
    (hptr : tibp inode ≠ 0) :
    ∃ v ∈ lookupVisits sb d inode bind buf, sb.dbpPerBlock ≤ v.2 := by
  obtain ⟨hind, hle⟩ := indirection_of_not_addressed h
  have hlow : ¬ bind < 12 := by omega
  have hdiv : 1 ≤ (bind - 12 - sb.dbpPerBlock - sb.dbpPerBlock * sb.dbpPerBlock) / sb.dbpPerBlock :=
    (Nat.le_div_iff_mul_le hn).mpr (by omega)
  rw [lookupVisits, if_neg hlow]
  dsimp only
  rw [hind, show rootPointer inode 3 = tibp inode from rfl, walkIndices, visited, if_neg hptr]
  · exact ⟨_, List.mem_cons_self, Nat.le_mul_of_pos_left _ hdiv⟩
  · decide
  · decide

theorem dbpPerBlock_pos (haddr : ¬ Addressed sb.dbpPerBlock bind)
    (hbind : bind < 12 + sb.dbpPerBlock + sb.dbpPerBlock ^ 2 + sb.dbpPerBlock ^ 3) :
    0 < sb.dbpPerBlock := by
  rcases Nat.eq_zero_or_pos sb.dbpPerBlock with h0 | hpos
  · unfold Addressed at haddr
    rw [h0] at hbind haddr
    omega
  · exact hpos

/-- A file with a triply indirect block. -/
def tripleFile : Bytes := setTibp (fun _ => 0) 20

/-- Its data block 256 under that block is block 99. -/
def tripleMedium : Bytes :=
  setLe (setLe (setLe blankMedium 20480 4 21) 21508 4 22) 22528 4 99

end Lookup

section RoundTrip

/-- What `fs_ext2_write_inode_data` returns. -/
def writesData (sb : Superblock) (d inode : Bytes) (bind : Nat) (bin : Bytes) : Bool :=
  (getInodePointer sb d inode bind bin).1 ≠ 0

/-- A write of the data `bin` succeeds exactly where the layout has a block, the data are read
back, nothing else on the medium changes, and the buffer, a block long, keeps the data. -/
structure DataRoundTrip (sb : Superblock) (d inode : Bytes) (bind : Nat) (bin : Bytes) : Prop where
  inBuffer : ∀ v ∈ lookupVisits sb d inode bind bin, v.2 < sb.dbpPerBlock
  kept : ∀ i < sb.blockSize, (writeInodeData sb d inode bind bin).2 i = bin i
  null : layoutPointer sb d inode bind = 0 →
    writesData sb d inode bind bin = false ∧ (writeInodeData sb d inode bind bin).1 = d
  stored : layoutPointer sb d inode bind ≠ 0 → writesData sb d inode bind bin = true ∧
    (∀ i, ¬ InBlock sb (layoutPointer sb d inode bind) i →
      (writeInodeData sb d inode bind bin).1 i = d i) ∧
    ∀ bout, (readInodeData sb (writeInodeData sb d inode bind bin).1 inode bind bout).1 = true ∧
      ∀ i < sb.blockSize,
        (readInodeData sb (writeInodeData sb d inode bind bin).1 inode bind bout).2 i = bin i

/-- No pointer block is read, or the buffer already holds the one that is read last. -/
def HoldsLastVisit (sb : Superblock) (d inode : Bytes) (bind : Nat) (bin : Bytes) : Prop :=
  ∀ v, (lookupVisits sb d inode bind bin).getLast? = some v →
    Addressed sb.dbpPerBlock bind ∧ ∀ i < sb.blockSize, bin i = d (blockStart sb v.1 + i)

theorem blockSize_dvd_blockStart (sb : Superblock) (b : Nat) : sb.blockSize ∣ blockStart sb b := by
  have hmul := blockSectors_mul sb
  unfold blockStart
  rw [← hmul]
  refine Nat.mul_dvd_mul_right ?_ _
  unfold u32
  by_cases hlog : 10 + sb.blockLogsz < 32
  · -- the sectors of a block are a power of two below 2 ^ 32
    have hsize : sb.blockSize = 2 ^ (10 + sb.blockLogsz) := by
      unfold Superblock.blockSize u32
      rw [show 1024 * 2 ^ sb.blockLogsz = 2 ^ (10 + sb.blockLogsz) by rw [Nat.pow_add]]
      exact Nat.mod_eq_of_lt (Nat.pow_lt_pow_right (by decide) hlog)
    have hsectors : sb.blockSectors = 2 ^ (1 + sb.blockLogsz) := by
      rw [hsize, show 10 + sb.blockLogsz = 1 + sb.blockLogsz + 9 by omega, Nat.pow_add] at hmul
      exact Nat.eq_of_mul_eq_mul_right (show 0 < 2 ^ 9 by decide) hmul
    have hdvd : sb.blockSectors ∣ 2 ^ 32 := by
      rw [hsectors]
      exact Nat.pow_dvd_pow 2 (by omega)
    exact (Nat.dvd_mod_iff hdvd).mpr (Nat.dvd_mul_left _ _)
  · have hsize : sb.blockSize = 0 := by
      unfold Superblock.blockSize u32
      rw [show 1024 * 2 ^ sb.blockLogsz = 2 ^ (10 + sb.blockLogsz) by rw [Nat.pow_add]]
      exact Nat.mod_eq_zero_of_dvd (Nat.pow_dvd_pow 2 (by omega))
    have hsectors : sb.blockSectors = 0 := by
      unfold ataSectorSize at hmul
      omega
    simp [hsectors]

theorem InBlock.apart {b : Nat} (h : blockStart sb p ≠ blockStart sb b) (hi : InBlock sb p i) :
    ¬ InBlock sb b i := by
  obtain ⟨x, hx⟩ := blockSize_dvd_blockStart sb p
  obtain ⟨y, hy⟩ := blockSize_dvd_blockStart sb b
  unfold InBlock at hi ⊢
  rw [hx] at hi h
  rw [hy] at h ⊢
  rintro ⟨hlow, hhigh⟩
  rcases Nat.lt_trichotomy x y with hxy | rfl | hxy
  · have := Nat.mul_le_mul_left sb.blockSize (Nat.succ_le_of_lt hxy)
    rw [Nat.mul_succ] at this
    omega
  · exact h rfl
  · have := Nat.mul_le_mul_left sb.blockSize (Nat.succ_le_of_lt hxy)
    rw [Nat.mul_succ] at this
    omega

theorem Addressed.visits (h : Addressed sb.dbpPerBlock bind) {v : Nat × Nat}
    (hv : v ∈ lookupVisits sb d inode bind buf) : PointerBlock sb d inode v.1 := by
  unfold lookupVisits at hv
  split at hv
  · cases hv
  rename_i hlow
  obtain ⟨-, hlt⟩ := walkIndices_eq_digits hlow h
  refine visited_pointerBlock hlt (fun hne => ?_) hv
  revert hne
  unfold indirection
  split
  · exact fun hne => .inr (.inl (.self hne))
  split
  · exact fun hne => .inr (.inr (.inl (.self hne)))
  · exact fun hne => .inr (.inr (.inr (.self hne)))

theorem lookup_untouched (h : lookupVisits sb d inode bind buf = []) :
    (getInodePointer sb d inode bind buf).2 = buf := by
  unfold lookupVisits at h
  split at h
  · rename_i hlow
    rw [getInodePointer_direct hlow]
  · rename_i hlow
    rw [getInodePointer_eq hlow]
    exact walk_untouched h

theorem lookup_buffer {v : Nat × Nat} (h : (lookupVisits sb d inode bind buf).getLast? = some v)
    (hi : i < sb.blockSize) :
    (getInodePointer sb d inode bind buf).2 i = d (blockStart sb v.1 + i) := by
  unfold lookupVisits at h
  split at h
  · cases h
  · rename_i hlow
    rw [getInodePointer_eq hlow]
    exact walk_buffer h hi

theorem lookup_congr (h : ∀ v ∈ lookupVisits sb d inode bind buf,
      ∀ b, readBlock sb d' v.1 b = readBlock sb d v.1 b) :
    getInodePointer sb d' inode bind buf = getInodePointer sb d inode bind buf := by
  unfold lookupVisits at h
  split at h
  · rename_i hlow
    rw [getInodePointer_direct hlow, getInodePointer_direct hlow]
  · rename_i hlow
    rw [getInodePointer_eq hlow, getInodePointer_eq hlow]
    exact walk_congr h

theorem snd_writeInodeData (sb : Superblock) (d inode : Bytes) (bind : Nat) (bin : Bytes) :
    (writeInodeData sb d inode bind bin).2 = (getInodePointer sb d inode bind bin).2 := by
  unfold writeInodeData
  dsimp only
  split <;> rfl

theorem writeBlock_of_outside {b : Nat} (h : ¬ InBlock sb b i) : writeBlock sb d b buf i = d i := by
  have hmul := blockSectors_mul sb
  unfold InBlock blockStart at h
  unfold writeBlock ataWrite
  rcases Nat.lt_or_ge i (u32 (b * sb.blockSectors) * ataSectorSize) with hlt | hge
  · exact copyTo_of_lt hlt
  · exact copyTo_of_ge (by omega)

theorem readBlock_writeBlock {b : Nat} {bout : Bytes} (hi : i < sb.blockSize) :
    readBlock sb (writeBlock sb d b buf) b bout i = buf i := by
  rw [readBlock_of_lt b hi]
  exact copyTo_add (by rwa [blockSectors_mul])

/-- The buffer keeps the data exactly where no other block is read into it. -/
theorem writeInodeData_kept_iff (sb : Superblock) (d inode : Bytes) (bind : Nat) (bin : Bytes) :
    (∀ i < sb.blockSize, (writeInodeData sb d inode bind bin).2 i = bin i) ↔
      ∀ v, (lookupVisits sb d inode bind bin).getLast? = some v →
        ∀ i < sb.blockSize, bin i = d (blockStart sb v.1 + i) := by
  rw [snd_writeInodeData]
  constructor
  · intro h v hv i hi
    rw [← h i hi]
    exact lookup_buffer hv hi
  · intro h i hi
    cases hlast : (lookupVisits sb d inode bind bin).getLast? with
    | none => rw [lookup_untouched (List.getLast?_eq_none_iff.mp hlast)]
    | some v =>
        rw [lookup_buffer hlast hi]
        exact (h v hlast i hi).symm

theorem root_of_visits {v : Nat × Nat} (hv : v ∈ lookupVisits sb d inode bind buf) :
    ¬ bind < 12 ∧ rootPointer inode (indirection sb.dbpPerBlock bind).1 ≠ 0 := by
  unfold lookupVisits at hv
  split at hv
  · cases hv
  rename_i hlow
  refine ⟨hlow, fun hnull => ?_⟩
  dsimp only at hv
  rw [hnull] at hv
  cases hwalk : walkIndices sb.dbpPerBlock (indirection sb.dbpPerBlock bind) with
  | nil =>
      rw [hwalk] at hv
      cases hv
  | cons j js =>
      rw [hwalk, visited, if_pos rfl] at hv
      cases hv

theorem looksUp_of_no_visit (h : lookupVisits sb d inode bind buf = [])
    (hbind : bind < 12 + sb.dbpPerBlock + sb.dbpPerBlock ^ 2 + sb.dbpPerBlock ^ 3) :
    Addressed sb.dbpPerBlock bind ∨
      ¬ bind < 12 ∧ rootPointer inode (indirection sb.dbpPerBlock bind).1 = 0 := by
  by_contra hnot
  obtain ⟨haddr, hroot⟩ := not_or.mp hnot
  have hn := dbpPerBlock_pos haddr hbind
  obtain ⟨hind, hle⟩ := indirection_of_not_addressed haddr
  have hlow : ¬ bind < 12 := by omega
  have hptr : tibp inode ≠ 0 := fun hnull => hroot ⟨hlow, by rw [hind]; exact hnull⟩
  obtain ⟨v, hv, -⟩ : ∃ v ∈ lookupVisits sb d inode bind buf, sb.dbpPerBlock ≤ v.2 :=
    not_addressed_visits haddr hn hptr
  rw [h] at hv
  cases hv

/-- What is written is found again, whatever the buffer of the reader holds. -/
theorem readInodeData_writeBlock (hlook : ∀ bout, LooksUp sb d inode bind bout)
    (hvisits : ∀ bout, ∀ v ∈ lookupVisits sb d inode bind bout,
      blockStart sb v.1 ≠ blockStart sb (layoutPointer sb d inode bind))
    (hptr : layoutPointer sb d inode bind ≠ 0) (bin bout : Bytes) :
    let d' := writeBlock sb d (layoutPointer sb d inode bind) bin
    (readInodeData sb d' inode bind bout).1 = true ∧
      ∀ i < sb.blockSize, (readInodeData sb d' inode bind bout).2 i = bin i := by
  intro d'
  have hsame : getInodePointer sb d' inode bind bout = getInodePointer sb d inode bind bout :=
    lookup_congr fun v hv b => readBlock_congr
      (fun i hi => writeBlock_of_outside (hi.apart (hvisits bout v hv))) b
  have hread : readInodeData sb d' inode bind bout =
      (true, readBlock sb d' (layoutPointer sb d inode bind)
        (getInodePointer sb d inode bind bout).2) := by
    unfold readInodeData
    dsimp only
    rw [hsame, (hlook bout).pointer, if_neg hptr]
  rw [hread]
  exact ⟨rfl, fun i hi => readBlock_writeBlock hi⟩

/-- Logical block 12 of `indirectFile` is block 99. -/
def indirectMedium : Bytes := setLe blankMedium 20480 4 99

theorem pointerBlock_indirectFile (h : PointerBlock sb d indirectFile p) : p = 20 := by
  obtain ⟨k, ⟨j, hj, h⟩ | h | h | h⟩ := h
  · cases h
  · rw [show sibp indirectFile = 20 by decide] at h
    cases h with
    | self => rfl
    | child _ _ h => cases h
  · exact absurd (show dibp indirectFile = 0 by decide) h.root_ne_zero
  · exact absurd (show tibp indirectFile = 0 by decide) h.root_ne_zero

theorem indirectMedium_apart (hp : PointerBlock (oneGroup 5).sb indirectMedium indirectFile p) :
    blockStart (oneGroup 5).sb p ≠
      blockStart (oneGroup 5).sb (layoutPointer (oneGroup 5).sb indirectMedium indirectFile 12) := by
  rw [pointerBlock_indirectFile hp]
  decide +kernel

end RoundTrip

end UntitledOs.Fs
