import Formula.Native.Pages
import Mathlib.Algebra.Group.Nat.Defs
import Mathlib.Order.Bounds.Basic
import Mathlib.Tactic.SplitIfs

/-!
# Pages are written or executed, never both

What a step does to pages depends on whether they are executable (`perform_write`): until then a
write that fits replaces exactly its bytes (`contents_overwrite`), and afterwards nothing changes
them any more (`run_of_executable`). So the requests of a run tell what pages will do
(`write_xor_execute`). The size of new pages is the least multiple of the page size that suffices
(`isLeast_roundUp`).
-/

namespace Formula.Native.Pages

/-! ## Runs -/

/-- What can be asked of pages. -/
inductive Access where
  | write (offset : Nat) (data : List UInt8)
  | read (offset count : Nat)
  | makeExecutable
  /-- A pointer of so many bytes to call the pages through. -/
  | asFunction (width : Nat)
deriving DecidableEq

/-- The answer. -/
inductive Reply where
  | done
  | refused (error : MemoryError)
  | bytes (bytes : List UInt8)
  | function (given : Bool)
deriving DecidableEq

/-- Answers a request. A write that is refused changes nothing. -/
def perform (p : Pages) : Access → Reply × Pages
  | .write offset data =>
    match p.write offset data with
    | .ok written => (.done, written)
    | .error error => (.refused error, p)
  | .read offset count => (.bytes (p.read offset count), p)
  | .makeExecutable => (.done, p.makeExecutable)
  | .asFunction width => (.function (p.isCallable width), p)

/-- The pages after a sequence of requests. -/
def run (p : Pages) (accesses : List Access) : Pages :=
  accesses.foldl (fun p access => (p.perform access).2) p

/-- All bytes of the pages. -/
def contents (p : Pages) : List UInt8 :=
  p.read 0 p.size

/-- Whether so many bytes fit at an offset, which is a number of 64 bits as well as their end. -/
def Fits (p : Pages) (offset count : Nat) : Prop :=
  offset + count < 2 ^ 64 ∧ offset + count ≤ p.size

instance (p : Pages) (offset count : Nat) : Decidable (p.Fits offset count) :=
  inferInstanceAs (Decidable (_ ∧ _))

/-! ## Sizes -/

/-- The size of the pages for a request is the least one that suffices. -/
theorem isLeast_roundUp (size : Nat) :
    IsLeast {bytes | pageSize ∣ bytes ∧ size ≤ bytes} (roundUp size) := by
  unfold roundUp pageSize
  refine ⟨⟨Nat.dvd_mul_left .., by omega⟩, ?_⟩
  rintro bytes ⟨⟨pages, rfl⟩, hSize⟩
  omega

theorem allocateFrom_eq_invalidSize_iff (maps : Nat → Bool) (size : Nat) :
    allocateFrom maps size = .error .invalidSize ↔ size = 0 ∨ 2 ^ 64 - 1 < size + 4095 := by
  have hLimit : UInt64.size ≤ size + (pageSize - 1) ↔ 2 ^ 64 - 1 < size + 4095 := Iff.rfl
  rw [← hLimit, allocateFrom]
  split_ifs with hInvalid hMaps
  · exact iff_of_true rfl hInvalid
  · exact iff_of_false nofun hInvalid
  · exact iff_of_false nofun hInvalid

/-- A size that is not invalid is rounded up, and pages are had if the machine maps that much. -/
theorem allocateFrom_of_valid (maps : Nat → Bool) {size : Nat}
    (h : ¬(size = 0 ∨ 2 ^ 64 - 1 < size + 4095)) : allocateFrom maps size =
      if maps (roundUp size) then .ok (zeroed (roundUp size)) else .error .allocationFailed :=
  if_neg h

/-! ## Contents -/

section Contents

variable {p : Pages} {offset count : Nat} {data : List UInt8}

theorem length_contents (p : Pages) : p.contents.length = p.size := by
  rw [contents, read, List.length_map, List.length_range]

theorem getElem?_contents {i : Nat} (h : i < p.size) : p.contents[i]? = some (p.byteAt i) := by
  rw [contents, read, List.getElem?_map, List.getElem?_range h, Option.map_some, Nat.zero_add]

theorem read_eq (h : offset + count ≤ p.size) :
    p.read offset count = (p.contents.drop offset).take count := by
  apply List.ext_getElem?
  intro i
  rw [read, List.getElem?_map, List.getElem?_take]
  split_ifs with hi
  · rw [List.getElem?_range hi, List.getElem?_drop, getElem?_contents (by omega), Option.map_some]
  · rw [List.getElem?_eq_none (by rw [List.length_range]; omega), Option.map_none]

/-- Other bytes replace exactly those that they cover. -/
theorem contents_overwrite (h : offset + data.length ≤ p.size) :
    (p.overwrite offset data).contents =
      p.contents.take offset ++ (data ++ p.contents.drop (offset + data.length)) := by
  have hFront : (p.contents.take offset).length = offset := by
    rw [List.length_take, length_contents]
    omega
  have hByte (i : Nat) : (p.overwrite offset data).byteAt i =
      if offset ≤ i ∧ i < offset + data.length then data[i - offset]?.getD 0 else p.byteAt i := rfl
  apply List.ext_getElem?
  intro i
  rcases Nat.lt_or_ge i p.size with hi | hi
  · -- before the new bytes, among them, or behind them
    have hSize : i < (p.overwrite offset data).size := hi
    rw [getElem?_contents hSize, hByte]
    by_cases hBefore : i < offset
    · rw [List.getElem?_append_left (by omega), List.getElem?_take_of_lt hBefore,
        getElem?_contents hi, if_neg (by omega)]
    · rw [List.getElem?_append_right (by omega), hFront]
      by_cases hInside : i < offset + data.length
      · have hPlace : i - offset < data.length := by omega
        rw [List.getElem?_append_left hPlace, if_pos (And.intro (by omega) hInside),
          List.getElem?_eq_getElem hPlace, Option.getD_some]
      · have hSame : offset + data.length + (i - offset - data.length) = i := by omega
        rw [List.getElem?_append_right (by omega), List.getElem?_drop, if_neg (by omega), hSame,
          getElem?_contents hi]
  · have hSize : (p.overwrite offset data).size ≤ i := hi
    rw [List.getElem?_eq_none (by rw [length_contents]; exact hSize), List.getElem?_eq_none]
    rw [List.length_append, List.length_append, List.length_drop, hFront, length_contents]
    omega

end Contents

/-! ## Steps -/

section Steps

variable {p : Pages}

/-- What a write does. -/
theorem perform_write (p : Pages) (offset : Nat) (data : List UInt8) :
    p.perform (.write offset data) =
      if p.executable then (.refused .protectionFailed, p)
      else if p.Fits offset data.length then (.done, p.overwrite offset data)
      else (.refused .invalidSize, p) := by
  have hFits : (offset + data.length < UInt64.size ∧ offset + data.length ≤ p.size) ↔
      p.Fits offset data.length := Iff.rfl
  simp only [perform, write, hFits]
  split_ifs <;> rfl

/-- A refusal changes nothing. -/
theorem perform_of_refused {access : Access} {error : MemoryError}
    (h : (p.perform access).1 = .refused error) : (p.perform access).2 = p := by
  cases access with
  | write offset data =>
    rw [perform_write] at h ⊢
    split_ifs at h ⊢
    · rfl
    · rfl
  | read offset count => rfl
  | makeExecutable => cases h
  | asFunction width => rfl

/-- No request changes the size, and pages become executable when they are made so. -/
theorem perform_keeps (p : Pages) (access : Access) :
    (p.perform access).2.size = p.size ∧
      ((p.perform access).2.executable = true ↔
        p.executable = true ∨ access = .makeExecutable) := by
  cases access with
  | write offset data =>
    rw [or_iff_left nofun, perform_write]
    split_ifs <;> exact ⟨rfl, Iff.rfl⟩
  | read offset count => exact ⟨rfl, (or_iff_left nofun).symm⟩
  | makeExecutable => exact ⟨rfl, iff_of_true rfl (.inr rfl)⟩
  | asFunction width => exact ⟨rfl, (or_iff_left nofun).symm⟩

/-- Executable pages stay as they are. -/
theorem perform_of_executable (h : p.executable = true) (access : Access) :
    (p.perform access).2 = p := by
  cases access with
  | write offset data => rw [perform_write, if_pos h]
  | read offset count => rfl
  | makeExecutable =>
    obtain ⟨size, byteAt, executable⟩ := p
    cases h
    rfl
  | asFunction width => rfl

theorem run_of_executable (h : p.executable = true) (accesses : List Access) :
    p.run accesses = p := by
  induction accesses with
  | nil => rfl
  | cons access accesses ih =>
    rw [run, List.foldl_cons, perform_of_executable h]
    exact ih

theorem run_keeps (accesses : List Access) : ∀ p : Pages, (p.run accesses).size = p.size ∧
    ((p.run accesses).executable = true ↔
      p.executable = true ∨ .makeExecutable ∈ accesses) := by
  induction accesses with
  | nil => exact fun p => ⟨rfl, (or_iff_left List.not_mem_nil).symm⟩
  | cons access accesses ih =>
    intro p
    obtain ⟨hSize, hExecutable⟩ := p.perform_keeps access
    obtain ⟨hSizes, hExecutables⟩ := ih (p.perform access).2
    refine ⟨hSizes.trans hSize, hExecutables.trans ?_⟩
    rw [hExecutable, List.mem_cons, or_assoc, @eq_comm _ access]

end Steps

/-! ## Any requests -/

/-- Pages can be had for any size but zero and those near the end of the address range, as far as
the machine maps the least sufficient number of whole pages. Whatever is asked of them then, they
can be written where the bytes fit until they are made executable, and remain the same from then on;
and only then can they be called. -/
theorem write_xor_execute (maps : Nat → Bool) (size : UInt64) :
    (allocateFrom maps size.toNat = .error .invalidSize ↔
      size.toNat = 0 ∨ 2 ^ 64 - 1 < size.toNat + 4095) ∧
    (¬(size.toNat = 0 ∨ 2 ^ 64 - 1 < size.toNat + 4095) → ∃ bytes,
      IsLeast {bytes | 4096 ∣ bytes ∧ size.toNat ≤ bytes} bytes ∧
      allocateFrom maps size.toNat =
        if maps bytes then .ok (zeroed bytes) else .error .allocationFailed) ∧
    ∀ fresh, allocateFrom maps size.toNat = .ok fresh → ∀ past : List Access,
      let p := fresh.run past
      p.size = fresh.size ∧
      -- writing
      (.makeExecutable ∉ past → ∀ offset data,
        ((p.perform (.write offset data)).1 = .done ↔
          offset + data.length < 2 ^ 64 ∧ offset + data.length ≤ p.size) ∧
        ((p.perform (.write offset data)).1 = .done →
          (p.perform (.write offset data)).2.contents =
            p.contents.take offset ++ (data ++ p.contents.drop (offset + data.length)))) ∧
      (.makeExecutable ∈ past → (∀ offset data,
        (p.perform (.write offset data)).1 = .refused .protectionFailed) ∧
        ∀ more, (fresh.run (past ++ more)).contents = p.contents) ∧
      (∀ access error, (p.perform access).1 = .refused error → (p.perform access).2 = p) ∧
      -- reading
      (∀ offset count, offset + count ≤ p.size →
        p.perform (.read offset count) = (.bytes ((p.contents.drop offset).take count), p)) ∧
      -- executing
      (p.perform .makeExecutable).1 = .done ∧
      (p.perform .makeExecutable).2.contents = p.contents ∧
      (p.perform .makeExecutable).2.perform .makeExecutable = p.perform .makeExecutable ∧
      ∀ width, ∃ given, p.perform (.asFunction width) = (.function given, p) ∧
        (given = true ↔ .makeExecutable ∈ past ∧ width = 8) := by
  refine ⟨allocateFrom_eq_invalidSize_iff maps _,
    fun hValid => ⟨_, isLeast_roundUp _, allocateFrom_of_valid maps hValid⟩, ?_⟩
  intro fresh hFresh past p
  have hWritable : fresh.executable = false := by
    unfold allocateFrom at hFresh
    split_ifs at hFresh
    cases hFresh
    rfl
  obtain ⟨hSize, hExecutable⟩ := run_keeps past fresh
  rw [hWritable, or_iff_right Bool.false_ne_true] at hExecutable
  refine ⟨hSize, fun hBefore offset data => ?_,
    fun hAfter => ⟨fun offset data => ?_, fun more => ?_⟩,
    fun access error => perform_of_refused, fun offset count hFits => ?_, rfl, rfl, rfl,
    fun width => ⟨_, rfl, ?_⟩⟩
  · rw [perform_write, if_neg (mt hExecutable.mp hBefore)]
    split_ifs with hFits
    · exact ⟨iff_of_true rfl hFits, fun _ => contents_overwrite hFits.2⟩
    · exact ⟨iff_of_false nofun hFits, nofun⟩
  · rw [perform_write, if_pos (hExecutable.mpr hAfter)]
  · have hMore := run_of_executable (hExecutable.mpr hAfter) more
    rw [run, List.foldl_append]
    exact congrArg contents hMore
  · rw [perform, read_eq hFits]
  · rw [isCallable, Bool.and_eq_true, decide_eq_true_eq, hExecutable]

/-- A page for ten bytes that holds a `ret` and has been made executable: its bytes are safe, and it
can be called. -/
theorem executable_page :
    let past := [.write 0 [0xc3], .makeExecutable]
    let p := (zeroed 4096).run past
    ¬((10 : UInt64).toNat = 0 ∨ 2 ^ 64 - 1 < (10 : UInt64).toNat + 4095) ∧
    allocateFrom (fun _ => true) (10 : UInt64).toNat = .ok (zeroed 4096) ∧
    Access.makeExecutable ∉ past.take 1 ∧
    (((zeroed 4096).run (past.take 1)).perform (.write 4095 [0xc3])).1 = .done ∧
    .makeExecutable ∈ past ∧ (p.perform (.write 0 [0x90])).1 = .refused .protectionFailed ∧
    p.perform (.asFunction 8) = (.function true, p) := by
  intro past p
  have hValid : ¬((10 : UInt64).toNat = 0 ∨ 2 ^ 64 - 1 < (10 : UInt64).toNat + 4095) := by decide
  have hFresh : allocateFrom (fun _ => true) (10 : UInt64).toNat = .ok (zeroed 4096) := rfl
  have hBefore : Access.makeExecutable ∉ past.take 1 := by decide
  have hAfter : .makeExecutable ∈ past := List.mem_cons_of_mem _ (List.mem_singleton_self _)
  obtain ⟨-, -, hRuns⟩ := write_xor_execute (fun _ => true) 10
  obtain ⟨hSize, hWrites, -⟩ := hRuns _ hFresh (past.take 1)
  obtain ⟨-, -, hProtected, -, -, -, -, -, hFunction⟩ := hRuns _ hFresh past
  have hFits : 4095 + [0xc3].length ≤ ((zeroed 4096).run (past.take 1)).size := by
    rw [hSize]
    decide
  have hDone := (hWrites hBefore 4095 [0xc3]).1.mpr ⟨by decide, hFits⟩
  obtain ⟨given, hGiven, hIff⟩ := hFunction 8
  rw [hIff.mpr ⟨hAfter, rfl⟩] at hGiven
  exact ⟨hValid, hFresh, hBefore, hDone, hAfter, (hProtected hAfter).1 0 _, hGiven⟩

end Formula.Native.Pages
