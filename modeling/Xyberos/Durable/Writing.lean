import Xyberos.Database.Retrying
import Xyberos.Durable.History

/-!
# Xyberos.Durable.Writing — a call of the store on its file

`JournalStore._write` retries the transaction of a call on the database of the journal.  On the file, a call that
returns is one call of the history, whose reads may be stale (`write_once`).
-/

set_option autoImplicit false

namespace Xyberos.Durable

open Database (File Left)

variable {V : Type} {store : JournalStore V} {op : Op V}

/-- What a call of the store may run: its transaction, with the time that the attempt reads. -/
def Operates (store : JournalStore V) (op : Op V) (t : Txn Journal Exc op.Reply) : Prop := ∃ now, t = op.txn store now

/-- `_write`. -/
def write (op : Op V) (lowered : Exc → String) (settings : Database.SqliteSettings) :
    Database.Task op.Reply op.Reply :=
  Database.retrying lowered settings none none

/-- What is committed on a file. -/
def historyOf (f : File Journal) : History := ⟨f.current, f.older⟩

theorem exists_reads {h : History} {snapshots : List Journal} (hmem : ∀ j ∈ snapshots, j ∈ h.current :: h.older) :
    ∃ reads : List ℕ, (reads.map fun n => (h.current :: h.older).getD n h.current) = snapshots := by
  induction snapshots with
  | nil => exact ⟨[], rfl⟩
  | cons j snapshots ih =>
    obtain ⟨hj, hrest⟩ := List.forall_mem_cons.mp hmem
    obtain ⟨reads, rfl⟩ := ih hrest
    obtain ⟨n, hn, rfl⟩ := List.mem_iff_getElem.mp hj
    exact ⟨n :: reads, by rw [List.map_cons, List.getD_eq_getElem _ _ hn]⟩

/-- A transaction on a file is a call of its history. -/
theorem result_of_runs {f : File Journal} {now : Instant} {value : op.Reply} {next : Journal}
    (h : f.Runs (op.txn store now) value next) :
    ∃ reads, (StaleCall.mk op now reads).result store (historyOf f) = .ok (value, next) := by
  obtain ⟨snapshots, hmem, hrun⟩ := h
  obtain ⟨reads, hreads⟩ := exists_reads (h := historyOf f) hmem
  refine ⟨reads, ?_⟩
  rw [StaleCall.result, StaleCall.snapshots, hreads]
  exact hrun

/-- **A call is committed once.**  When it returns, it has been one call of the history, and what that leaves is what
this connection has committed, if it has written at all.  When it raises, it has committed nothing, unless it was
interrupted. -/
theorem write_once {lowered : Exc → String} {settings : Database.SqliteSettings} {f g : File Journal}
    {l : List (Database.Ask × File Journal)} {r : Except Exc op.Reply}
    (h : Proc.Runs (Database.world (Operates store op)) (write op lowered settings) f l r g) (hf : f.pending = none) :
    (∀ value, r = .ok value → ∃ now reads history next,
      (StaleCall.mk op now reads).result store history = .ok (value, next) ∧
      (g.own = f.own ++ [((history.current, history.older), next)] ∨ next = history.current ∧ g.own = f.own)) ∧
    ∀ error, r = .error error → Left f.own error g := by
  refine ⟨fun value hvalue => ?_, fun error herror => (Database.left_of_retrying (herror ▸ h) hf).1⟩
  obtain ⟨⟨t, before, next, ⟨now, rfl⟩, hruns, hown⟩, -, -⟩ := Database.once_of_retrying (hvalue ▸ h) hf
  obtain ⟨reads, hresult⟩ := result_of_runs hruns
  exact ⟨now, reads, historyOf before, next, hresult, hown⟩

end Xyberos.Durable
