import LinuxDemo.Invariant.SharedFileMapping

/-!
# What the file remembers

Any number of invocations of `shared_file_mapping` on one file.
-/
namespace LinuxDemo.Guarantees.SharedFileMapping
open LinuxDemo.Lib LinuxDemo.Source.SharedFileMapping LinuxDemo.Invariant.SharedFileMapping

/-- The size never changes, nor does what is behind MEMSIZE. Every invocation shows what is
kept of the last text, and complains exactly of a text longer than MEMSIZE; a text of MEMSIZE
bytes, or one longer than the file, is cut without a word. Nothing goes wrong unless the file
is empty. -/
theorem last_text_is_shown (file : List UInt8) (args : List (Option Arg)) :
    Ends (fun f => f = .outOfBounds ∧ file = []) (run step ⟨file, []⟩ args) (fun s =>
      s.file.length = file.length ∧ s.file.drop MEMSIZE = file.drop MEMSIZE ∧
      s.output.length = args.length ∧
      ∀ before arg after, args = before ++ arg :: after →
        s.output[before.length]? = some (printed file before arg)) ∧
    ∀ text, kept file.length text = text ↔
      text.length ≤ MEMSIZE - 1 ∧ text.length ≤ file.length := by
  have history := run_ends_history (I := Remembers file) step
    (fun done s arg h => step_remembers h arg)
    (remembers_init file) args
  exact ⟨history.mono fun s h => ⟨h.size, h.behind, h.count, h.output⟩, kept_eq_iff _⟩

end LinuxDemo.Guarantees.SharedFileMapping
