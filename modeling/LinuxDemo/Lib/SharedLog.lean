import Mathlib.Data.List.Basic

/-!
# A log that many write and read

The entries of a log with who made them. Everybody reads, in the order of the log, what the
others have put there.
-/
namespace LinuxDemo.Lib
variable {ι β : Type} [DecidableEq ι]

/-- All that `i` has put into the log. -/
def said (i : ι) (log : List (ι × List β)) : List β :=
  (log.filter (·.1 = i)).flatMap (·.2)

/-- All that the others have put there. -/
def heard (i : ι) (log : List (ι × List β)) : List β :=
  (log.filter (·.1 ≠ i)).flatMap (·.2)

@[simp] theorem said_nil (i : ι) : said i ([] : List (ι × List β)) = [] := rfl

@[simp] theorem heard_nil (i : ι) : heard i ([] : List (ι × List β)) = [] := rfl

theorem said_concat (i j : ι) (log : List (ι × List β)) (data : List β) :
    said i (log ++ [(j, data)]) = said i log ++ if j = i then data else [] := by
  by_cases h : j = i <;> simp [said, h]

theorem heard_concat (i j : ι) (log : List (ι × List β)) (data : List β) :
    heard i (log ++ [(j, data)]) = heard i log ++ if j = i then [] else data := by
  by_cases h : j = i <;> simp [heard, h]

end LinuxDemo.Lib
