import Mathlib.Logic.Function.Basic

/-!
# Edge-triggered notification

A table of notifications, one for each descriptor: something new raises it, a report takes
it away, and whoever is told has to take what there is. `Covered` says that nothing that is
there goes without a notification, or a report that is still to be handled.
-/
namespace LinuxDemo.Lib

/-- Something new for the descriptors `fresh`. -/
def raise (notified : Nat → Bool) (fresh : Nat → Prop) [DecidablePred fresh] : Nat → Bool :=
  fun fd => notified fd || decide (fresh fd)

/-- The descriptors `fds` are reported. -/
def report (notified : Nat → Bool) (fds : List Nat) : Nat → Bool :=
  fun fd => notified fd && !decide (fd ∈ fds)

/-- Where there is something, there is a notification, or a report among `reports`. -/
def Covered (pending : Nat → Prop) (notified : Nat → Bool) (reports : List Nat) : Prop :=
  ∀ fd, pending fd → notified fd = true ∨ fd ∈ reports

theorem raise_none (notified : Nat → Bool) {fresh : Nat → Prop} [DecidablePred fresh]
    (none : ∀ fd, ¬ fresh fd) : raise notified fresh = notified := by
  funext fd
  change (notified fd || decide (fresh fd)) = notified fd
  simp [none fd]

namespace Covered
variable {pending pending' : Nat → Prop} {notified notified' : Nat → Bool} {reports : List Nat}

theorem nil_iff : Covered pending notified [] ↔ ∀ fd, pending fd → notified fd = true := by
  simp [Covered]

/-- There is no more than before, and what is new is notified. -/
theorem raise (h : Covered pending notified reports) (fresh : Nat → Prop) [DecidablePred fresh]
    (hp : ∀ fd, pending' fd → pending fd ∨ fresh fd) :
    Covered pending' (raise notified fresh) reports := by
  intro fd hfd
  rcases hp fd hfd with hold | hnew
  · exact (h fd hold).imp_left fun hn => by simp [Lib.raise, hn]
  · exact .inl (by simp [Lib.raise, hnew])

/-- Descriptors that are reported with nothing to take need not be looked at. -/
theorem report (h : Covered pending notified []) (fds : List Nat)
    (hr : ∀ fd ∈ fds, pending fd → fd ∈ reports) :
    Covered pending (report notified fds) reports := by
  intro fd hfd
  have hn : notified fd = true := by simpa using h fd hfd
  by_cases hmem : fd ∈ fds
  · exact .inr (hr fd hmem hfd)
  · exact .inl (by simp [Lib.report, hn, hmem])

/-- A report is handled so that nothing is left, or there is a new notification. -/
theorem serve {fd : Nat} (h : Covered pending notified (fd :: reports))
    (hleft : pending' fd → notified fd = true ∨ fd ∈ reports)
    (hp : ∀ fd', fd' ≠ fd → pending' fd' → pending fd') :
    Covered pending' notified reports := by
  intro fd' hfd'
  by_cases e : fd' = fd
  · subst e
    exact hleft hfd'
  · rcases h fd' (hp fd' e hfd') with hn | hmem
    · exact .inl hn
    · exact .inr ((List.mem_cons.mp hmem).resolve_left e)

/-- A descriptor is registered anew, or taken out. -/
theorem register {fd : Nat} {b : Bool} (h : Covered pending notified reports)
    (hb : pending' fd → b = true) (hp : ∀ fd', fd' ≠ fd → pending' fd' → pending fd') :
    Covered pending' (Function.update notified fd b) reports := by
  intro fd' hfd'
  by_cases e : fd' = fd
  · subst e
    exact .inl (by simp [hb hfd'])
  · rw [Function.update_of_ne e]
    exact h fd' (hp fd' e hfd')

theorem mono {reports' : List Nat} (h : Covered pending notified reports)
    (hr : ∀ fd ∈ reports, fd ∈ reports') : Covered pending notified reports' :=
  fun fd hfd => (h fd hfd).imp_right (hr fd)

/-- Something is taken, and the report is not done with. -/
theorem shrink (h : Covered pending notified reports) (hp : ∀ fd, pending' fd → pending fd) :
    Covered pending' notified reports :=
  fun fd hfd => h fd (hp fd hfd)

end Covered

section Counts
variable {notified : Nat → Bool} {seats : List Nat}

/-- A report takes a notification away for each descriptor. -/
theorem countP_report {fds : List Nat} (distinct : seats.Nodup) (once : fds.Nodup)
    (known : ∀ fd ∈ fds, fd ∈ seats) (told : ∀ fd ∈ fds, notified fd = true) :
    seats.countP (report notified fds) + fds.length = seats.countP notified := by
  have reported : (seats.filter (· ∈ fds)).Perm fds := by
    rw [List.perm_ext_iff_of_nodup (distinct.filter _) once]
    intro fd
    simpa using known fd
  have split : ∀ l : List Nat,
      l.countP (report notified fds) + l.countP (· ∈ fds) = l.countP notified := by
    intro l
    induction l with
    | nil => rfl
    | cons fd l ih =>
      simp only [List.countP_cons, report]
      by_cases hfd : fd ∈ fds
      · simp [hfd, told fd hfd]
        omega
      · simp [hfd]
        omega
  rw [← split seats, ← reported.length_eq, List.countP_eq_length_filter (p := (· ∈ fds))]

theorem countP_le_one {p : Nat → Bool} (distinct : seats.Nodup)
    (one : ∀ fd fd', p fd = true → p fd' = true → fd = fd') : seats.countP p ≤ 1 := by
  induction seats with
  | nil => simp
  | cons fd seats ih =>
    obtain ⟨absent, distinct⟩ := List.nodup_cons.mp distinct
    by_cases hfd : p fd = true
    · have none : seats.countP p = 0 := by
        rw [List.countP_eq_zero]
        intro fd' hmem hfd'
        exact absent (one fd' fd hfd' hfd ▸ hmem)
      simp [hfd, none]
    · simpa [hfd] using ih distinct

/-- A notification is raised for one descriptor at most. -/
theorem countP_raise_le {fresh : Nat → Prop} [DecidablePred fresh] (distinct : seats.Nodup)
    (one : ∀ fd fd', fresh fd → fresh fd' → fd = fd') :
    seats.countP (raise notified fresh) ≤ seats.countP notified + 1 := by
  have split : ∀ l : List Nat,
      l.countP (raise notified fresh) ≤ l.countP notified + l.countP fresh := by
    intro l
    induction l with
    | nil => exact Nat.le_refl 0
    | cons fd l ih =>
      have here : (if (notified fd || decide (fresh fd)) = true then 1 else 0) ≤
          (if notified fd = true then 1 else 0) + if decide (fresh fd) = true then 1 else 0 := by
        by_cases hfd : fresh fd
        · simp [hfd]
        · simp [hfd]
      rw [List.countP_cons, List.countP_cons, List.countP_cons]
      change _ + (if (notified fd || decide (fresh fd)) = true then 1 else 0) ≤ _
      omega
  have few : seats.countP fresh ≤ 1 := countP_le_one distinct (by simpa using one)
  have := split seats
  omega

end Counts
end LinuxDemo.Lib
