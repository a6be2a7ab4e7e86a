import Oak.Render.Ipc
import Oak.Render.Segment

/-!
# The answers to a batch

A batch of video tickets on its way to a worker and back: `dispatch_to` of
`oak-render/src/procpool.rs` builds and writes it, `handle_render_batch_stream` of
`oak-worker/src/worker.rs` reads it and answers, and `on_line` of the dispatcher takes the answers.

A batch is read as a whole. When one float of one ticket is lost, the worker answers the whole batch
with an error that names no ticket, and none of its tickets is answered.

## Main results

* `batch_answered_iff`: a batch is read field for field, and all its tickets are answered, exactly
  when every float of every ticket is finite and is read back as it was.
-/

namespace Oak.Render.Ipc

open Oak.Lib

variable {F : Type*} [JsonFloat F]

/-- The video tickets of a claim with the slots that they got. -/
structure VideoBatch (F : Type*) where
  batchId : ℤ
  tickets : List (ℤ × ℕ × VideoTicketParams F)
  nodup : (tickets.map Prod.fst).Nodup

namespace VideoBatch

variable (b : VideoBatch F) (slotFormat : ℤ)

/-- The message of the batch. -/
def msg : RenderBatchMsg F :=
  ⟨b.batchId, b.tickets.map fun x => buildTicketSpec x.1 x.2.1 x.2.2 slotFormat⟩

/-- The line that is written to the worker. -/
def line : Json F := renderBatchMsg.write (b.msg slotFormat)

end VideoBatch

/-- `handle_render_batch_stream`, without `batch_accepted`. A ticket is rendered into a slot, or
not. -/
def answers (render : BatchTicketSpec F → Option ℕ) (line : Json F) : List Answer :=
  match renderBatchMsg.read JsonFloat.reread line with
  | none => [.error]
  | some batch => batch.tickets.map fun spec =>
    match render spec with
    | some slot => .frameReady spec.ticket slot
    | none => .frameFailed spec.ticket

variable (s : Intake F × SlotTable)

/-- `on_line` for an answer, without the rings. -/
def receive : Answer → Intake F × SlotTable
  | .frameReady ticket slot =>
    match s.1.onFrameReady s.2 ticket slot with
    | none => s
    | some (t, table, _) => (t, table)
  | .frameFailed ticket =>
    match s.1.onFrameFailed s.2 ticket with
    | none => s
    | some (t, table, _) => (t, table)
  | .error => s

/-- The batch is read field for field, every ticket has one answer, and none is outstanding when the
answers are in. -/
structure Answered (b : VideoBatch F) (slotFormat : ℤ) (render : BatchTicketSpec F → Option ℕ)
    (s : Intake F × SlotTable) : Prop where
  read : renderBatchMsg.read JsonFloat.reread (b.line slotFormat) = some (b.msg slotFormat)
  once : ∀ x ∈ b.tickets,
    ((answers render (b.line slotFormat)).filterMap Answer.ticket).count x.1 = 1
  settled : ∀ x ∈ b.tickets,
    ∀ y ∈ ((answers render (b.line slotFormat)).foldl receive s).2.outstanding, y.1 ≠ x.1

/-- A float that is finite, and that is read as it was written. -/
def Carried (x : FloatWidth × F) : Prop :=
  JsonFloat.isFinite x.2 = true ∧ JsonFloat.reread x.1 x.2 = x.2

variable {b : VideoBatch F} {slotFormat : ℤ} {render : BatchTicketSpec F → Option ℕ}

/-! ### Reading -/

theorem floats_msg (b : VideoBatch F) (slotFormat : ℤ) :
    renderBatchMsg.floats (b.msg slotFormat) = b.tickets.flatMap fun x => x.2.2.floats := by
  rw [floats_renderBatchMsg, VideoBatch.msg, List.flatMap_map]
  congr 1
  funext x
  exact floats_buildTicketSpec _ _ _ _

/-- A batch is read as it was written exactly when all its floats are carried. -/
theorem read_line_iff :
    renderBatchMsg.read JsonFloat.reread (b.line slotFormat) = some (b.msg slotFormat) ↔
      ∀ x ∈ b.tickets, ∀ f ∈ x.2.2.floats, Carried f := by
  rw [VideoBatch.line, Codec.read_write_eq_iff, finite_iff, floats_msg]
  simp only [List.mem_flatMap, forall_exists_index, and_imp, Carried]
  exact ⟨fun h x hx f hf => ⟨h.1 f x hx hf, h.2 f x hx hf⟩,
    fun h => ⟨fun f x hx hf => (h x hx f hf).1, fun f x hx hf => (h x hx f hf).2⟩⟩

/-- A batch with a float that is not finite is answered by an error. -/
theorem answers_of_not_finite {x : ℤ × ℕ × VideoTicketParams F} (hx : x ∈ b.tickets)
    {f : FloatWidth × F} (hf : f ∈ x.2.2.floats) (hinfinite : JsonFloat.isFinite f.2 = false) :
    answers render (b.line slotFormat) = [.error] := by
  have hlost : finite (renderBatchMsg.floats (b.msg slotFormat)) = false := by
    rw [floats_msg]
    refine Bool.eq_false_iff.2 fun hall => ?_
    have hfinite := finite_iff.1 hall f (List.mem_flatMap.2 ⟨x, hx, hf⟩)
    exact absurd (hinfinite.symm.trans hfinite) Bool.false_ne_true
  rw [answers, VideoBatch.line, renderBatchMsg.read_write, hlost]
  rfl

/-! ### Answering -/

theorem tickets_answers {line : Json F} {msg : RenderBatchMsg F}
    (hread : renderBatchMsg.read JsonFloat.reread line = some msg) :
    (answers render line).filterMap Answer.ticket = msg.tickets.map BatchTicketSpec.ticket := by
  rw [answers, hread]
  dsimp only
  rw [List.filterMap_map, ← List.filterMap_eq_map]
  congr 1
  funext spec
  rw [Function.comp_apply]
  cases render spec <;> rfl

omit [JsonFloat F] in
/-- An answer takes its ticket off the outstanding ones, and no other. -/
theorem outstanding_receive (a : Answer) :
    (receive s a).2.outstanding = s.2.outstanding.filter fun y => a.ticket ≠ some y.1 := by
  have hkeep (hnone : ∀ y ∈ s.2.outstanding, a.ticket ≠ some y.1) :
      s.2.outstanding = s.2.outstanding.filter fun y => a.ticket ≠ some y.1 :=
    (List.filter_eq_self.2 fun y hy => decide_eq_true (hnone y hy)).symm
  have hremove (ticket : ℤ) : (s.2.remove ticket).outstanding =
      s.2.outstanding.filter fun y => some ticket ≠ some y.1 :=
    List.filter_congr fun y _ => by simp [eq_comm]
  have habsent (ticket : ℤ) (hslot : s.2.slotOf ticket = none) (y : ℤ × ℕ)
      (hy : y ∈ s.2.outstanding) : some ticket ≠ some y.1 := by
    rw [SlotTable.slotOf, Option.map_eq_none_iff, List.find?_eq_none] at hslot
    intro heq
    exact hslot y hy (decide_eq_true (Option.some.inj heq).symm)
  cases a with
  | error => exact hkeep fun y _ => by simp [Answer.ticket]
  | frameReady ticket slot =>
    rw [receive]
    cases hready : s.1.onFrameReady s.2 ticket slot with
    | none =>
      exact hkeep (habsent ticket (by rwa [Intake.onFrameReady, Option.map_eq_none_iff] at hready))
    | some answered =>
      obtain ⟨t, table, freed⟩ := answered
      exact (Intake.answered_frameReady hready).outstanding.trans (hremove ticket)
  | frameFailed ticket =>
    rw [receive]
    cases hfailed : s.1.onFrameFailed s.2 ticket with
    | none =>
      rw [Intake.onFrameFailed, Option.map_eq_none_iff] at hfailed
      exact hkeep (habsent ticket hfailed)
    | some answered =>
      obtain ⟨t, table, freed⟩ := answered
      exact (Intake.answered_frameFailed hfailed).outstanding.trans (hremove ticket)

omit [JsonFloat F] in
/-- What is outstanding after the answers was outstanding before, and was not answered. -/
theorem outstanding_foldl_receive (as : List Answer) :
    (as.foldl receive s).2.outstanding =
      s.2.outstanding.filter fun y => y.1 ∉ as.filterMap Answer.ticket := by
  induction as generalizing s with
  | nil => exact (List.filter_eq_self.2 fun y _ => decide_eq_true List.not_mem_nil).symm
  | cons a as ih =>
    rw [List.foldl_cons, ih, outstanding_receive, List.filter_filter]
    refine List.filter_congr fun y _ => ?_
    cases hticket : a.ticket with
    | none => simp [hticket]
    | some ticket => simp [hticket, eq_comm, Bool.and_comm]

/-- A batch is read field for field, and all its tickets are answered, exactly when every float of
every ticket is carried. -/
theorem batch_answered_iff (b : VideoBatch F) (slotFormat : ℤ)
    (render : BatchTicketSpec F → Option ℕ) (s : Intake F × SlotTable) :
    Answered b slotFormat render s ↔ ∀ x ∈ b.tickets, ∀ f ∈ x.2.2.floats, Carried f := by
  have hline : renderBatchMsg.read JsonFloat.reread (b.line slotFormat) =
      some (b.msg slotFormat) ↔ ∀ x ∈ b.tickets, ∀ f ∈ x.2.2.floats, Carried f := read_line_iff
  rw [← hline]
  refine ⟨Answered.read, fun hread => ?_⟩
  have htickets : (answers render (b.line slotFormat)).filterMap Answer.ticket =
      b.tickets.map Prod.fst := by
    rw [tickets_answers hread, VideoBatch.msg, List.map_map]
    rfl
  refine ⟨hread, fun x hx => ?_, fun x hx y hy heq => ?_⟩
  · rw [htickets]
    exact List.count_eq_one_of_mem b.nodup (List.mem_map_of_mem hx)
  · rw [outstanding_foldl_receive, List.mem_filter, htickets, decide_eq_true_eq] at hy
    exact hy.2 (heq ▸ List.mem_map_of_mem hx)

/-- Two tickets, the second with an effect whose parameter is infinite. -/
def infiniteGlow : VideoBatch (Option ℚ) where
  batchId := 1
  tickets :=
    [(1, 0, ⟨0, "", 0, none, none, none, [], []⟩),
      (2, 1, ⟨0, "", 0, none, none, none,
        [⟨"a.mov", 0, 0, 1, 0, some 1, [⟨"glow", true, none, [("radius", .float none)]⟩]⟩], []⟩)]
  nodup := by decide

theorem infiniteGlow_unanswered :
    ¬ ∀ (b : VideoBatch (Option ℚ)) (slotFormat : ℤ)
      (render : BatchTicketSpec (Option ℚ) → Option ℕ) (s : Intake (Option ℚ) × SlotTable),
      Answered b slotFormat render s := by
  intro h
  have honce := (h infiniteGlow slotFormatBgra8 (fun _ => none)
    (⟨.new 1 4, [], 3⟩, ⟨[], [(1, 0), (2, 1)], []⟩)).once _ List.mem_cons_self
  rw [answers_of_not_finite (x := infiniteGlow.tickets[1]) (f := (.double, none))
    (List.getElem_mem _) (by decide) rfl] at honce
  exact absurd honce (by decide)

end Oak.Render.Ipc
