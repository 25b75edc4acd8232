import LinuxDemo.Source.SharedFileMapping
import Mathlib.Data.List.ReduceOption
import Mathlib.Data.List.TakeDrop

/-!
# The file as a memory of one text

What `mmap` shows of what `msync` has stored: the text, as far as the file has room for it
and `strncpy` has copied it, and zeros.
-/
namespace LinuxDemo.Invariant.SharedFileMapping
open LinuxDemo.Lib LinuxDemo.Lib.CString LinuxDemo.Source.SharedFileMapping

/-- What is left of a text in a file of size `n`. -/
def kept (n : Nat) (text : List UInt8) : List UInt8 := text.take (min (MEMSIZE - 1) n)

/-- What there is to be shown after the invocations `done`. -/
def remembered (file : List UInt8) (done : List (Option Arg)) : List UInt8 :=
  match done.reduceOption.getLast? with
  | some arg => kept file.length arg.text
  | none => cstr (mmap file)

/-- What an invocation with `arg` prints after the invocations `done`. -/
def printed (file : List UInt8) (done : List (Option Arg)) (arg : Option Arg) : List Line :=
  .current (remembered file done) :: match arg with
    | some arg => (if arg.text.length > MEMSIZE then [.tooBig] else []) ++ [.copied arg.text]
    | none => []

theorem cstr_zeros {t : List UInt8} (ht : ∀ c ∈ t, c ≠ 0) (k : Nat) :
    cstr (t ++ List.replicate k 0) = t := by
  rw [cstr_of_ne_zero ht]
  cases k with
  | zero => simp [cstr]
  | succ k => simp [List.replicate_succ, cstr_cons_zero]

/-- The memory holds the text and zeros. -/
theorem strncpy_zeros (src : List UInt8) :
    strncpy (List.replicate MEMSIZE 0) src (MEMSIZE - 1) =
      src.take (MEMSIZE - 1) ++ List.replicate (MEMSIZE - min (MEMSIZE - 1) src.length) 0 := by
  rw [strncpy, List.drop_replicate, List.append_assoc, List.replicate_append_replicate]
  congr 2
  simp only [MEMSIZE]
  omega

/-- The file holds of the text what it has room for, and the mapping zeros behind it. -/
theorem mmap_msync (file text : List UInt8) :
    mmap (msync file (strncpy (List.replicate MEMSIZE 0) text (MEMSIZE - 1))) =
      kept file.length text ++ List.replicate (MEMSIZE - (kept file.length text).length) 0 := by
  rw [strncpy_zeros]
  rcases Nat.lt_or_ge file.length MEMSIZE with short | long
  · have none : file.drop MEMSIZE = [] := List.drop_eq_nil_of_le (Nat.le_of_lt short)
    simp only [msync, mmap, none, List.append_nil, List.take_append, List.take_replicate,
      List.take_take, List.append_assoc, List.replicate_append_replicate, kept, List.length_take,
      List.length_append, List.length_replicate]
    congr 2
    all_goals
      simp only [MEMSIZE] at short ⊢
      omega
  · have full : (text.take (MEMSIZE - 1) ++
        List.replicate (MEMSIZE - min (MEMSIZE - 1) text.length) (0 : UInt8)).length = MEMSIZE := by
      simp only [List.length_append, List.length_take, List.length_replicate]
      omega
    have all : min (MEMSIZE - 1) file.length = MEMSIZE - 1 := by omega
    have nothing : MEMSIZE - (MEMSIZE + (file.length - MEMSIZE)) = 0 := by omega
    rw [msync, List.take_of_length_le (by omega), mmap, List.take_left' full, List.length_append,
      full, List.length_drop, nothing, List.replicate_zero, List.append_nil, kept, all,
      List.length_take]

theorem shown_msync (file : List UInt8) (arg : Arg) :
    cstr (mmap (msync file (strncpy (List.replicate MEMSIZE 0) arg.text (MEMSIZE - 1)))) =
      kept file.length arg.text := by
  rw [mmap_msync]
  exact cstr_zeros (fun c hc => arg.noZero c (List.mem_of_mem_take hc)) _

theorem length_msync (file addr : List UInt8) (h : addr.length = MEMSIZE) :
    (msync file addr).length = file.length := by
  simp only [msync, List.length_append, List.length_take, List.length_drop, h]
  omega

theorem drop_msync (file addr : List UInt8) (h : addr.length = MEMSIZE) :
    (msync file addr).drop MEMSIZE = file.drop MEMSIZE := by
  rcases Nat.lt_or_ge file.length MEMSIZE with short | long
  · have none : file.drop MEMSIZE = [] := List.drop_eq_nil_of_le (Nat.le_of_lt short)
    rw [none]
    exact List.drop_eq_nil_of_le (by rw [length_msync file addr h]; omega)
  · rw [msync, List.take_of_length_le (by omega), ← h, List.drop_left]

structure Remembers (file : List UInt8) (done : List (Option Arg)) (s : State) : Prop where
  size : s.file.length = file.length
  behind : s.file.drop MEMSIZE = file.drop MEMSIZE
  shown : cstr (mmap s.file) = remembered file done
  count : s.output.length = done.length
  output : ∀ before arg after, done = before ++ arg :: after →
    s.output[before.length]? = some (printed file before arg)

theorem remembers_init (file : List UInt8) : Remembers file [] ⟨file, []⟩ where
  size := rfl
  behind := rfl
  shown := rfl
  count := rfl
  output := by simp

theorem length_strncpy (src : List UInt8) :
    (strncpy (List.replicate MEMSIZE 0) src (MEMSIZE - 1)).length = MEMSIZE := by
  rw [strncpy_zeros]
  simp only [List.length_append, List.length_take, List.length_replicate]
  omega

/-- What is to be shown next, and what the invocation has printed. -/
theorem Remembers.next {file : List UInt8} {done : List (Option Arg)} {s : State}
    (h : Remembers file done s) (arg : Option Arg) {file' : List UInt8}
    (size : file'.length = file.length) (behind : file'.drop MEMSIZE = file.drop MEMSIZE)
    (shown : cstr (mmap file') = remembered file (done ++ [arg])) :
    Remembers file (done ++ [arg]) ⟨file', s.output ++ [printed file done arg]⟩ where
  size := size
  behind := behind
  shown := shown
  count := by simp [h.count]
  output before a after hdone := by
    rcases List.eq_nil_or_concat after with rfl | ⟨after, last, rfl⟩
    · obtain ⟨rfl, rfl⟩ := List.concat_inj.mp (by simpa using hdone)
      simp [← h.count]
    · rw [List.concat_eq_append, ← List.cons_append, ← List.append_assoc] at hdone
      obtain ⟨rfl, -⟩ := List.append_inj' hdone rfl
      rw [List.getElem?_append_left (by simp [h.count])]
      exact h.output before a after rfl

theorem step_remembers {file : List UInt8} {done : List (Option Arg)} {s : State}
    (h : Remembers file done s) (arg : Option Arg) :
    Ends (fun f => f = .outOfBounds ∧ file = []) (step s arg) (Remembers file (done ++ [arg])) := by
  unfold step main
  by_cases empty : s.file = []
  · have : file = [] := by
      rw [← List.length_eq_zero_iff, ← h.size, empty, List.length_nil]
    simp [empty, this]
  · simp only [empty, if_false]
    cases arg with
    | none =>
      have shown := h.shown
      rw [ok_bind, shown]
      exact h.next none h.size h.behind (by rw [shown]; simp [remembered, List.reduceOption])
    | some arg =>
      have after : cstr (mmap (msync s.file (strncpy (List.replicate MEMSIZE 0) arg.text
          (MEMSIZE - 1)))) = remembered file (done ++ [some arg]) := by
        rw [shown_msync, h.size]
        simp [remembered, List.reduceOption]
      have next := h.next (some arg) ((length_msync _ _ (length_strncpy arg.text)).trans h.size)
        ((drop_msync _ _ (length_strncpy arg.text)).trans h.behind) after
      rw [ok_bind, h.shown]
      by_cases big : arg.text.length > MEMSIZE
      · simpa [printed, big] using next
      · simpa [printed, big] using next

/-- A text is kept whole if it leaves room for a terminator and the file has room for it. -/
theorem kept_eq_iff (n : Nat) (text : List UInt8) :
    kept n text = text ↔ text.length ≤ MEMSIZE - 1 ∧ text.length ≤ n := by
  rw [kept, List.take_eq_self_iff, Nat.le_min]

end LinuxDemo.Invariant.SharedFileMapping
