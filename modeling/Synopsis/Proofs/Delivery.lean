import Synopsis.Command
import Synopsis.Proofs.Document
import Synopsis.Proofs.Writing

/-!
# What delivering a document changes

The parts of the command that come before the writing look at the files and leave them alone, so the
document is that of the files as they were, even if it is written to one of them. The writing itself
reaches one place only: the one that the output path leads to, through links if there are any.
-/

namespace Synopsis.Command

variable {tree : FileTree} {place : Place}

namespace Action

theorem on_append (tree : FileTree) (hplace : place ≠ []) (room : Option Nat)
    (written bytes : List UInt8) :
    (append room place bytes).on (tree.put place (.file written)) =
      (if fits room (written ++ bytes) then .ok () else .error (.output fullMessage.toList),
        tree.put place (.file (kept room (written ++ bytes)))) := by
  rw [append, on_mk, FileTree.bytesAt_put hplace]
  simp only [FileTree.put_put]

theorem kept_of_fits {room : Option Nat} {bytes : List UInt8} (h : fits room bytes) :
    kept room bytes = bytes := by
  cases room with
  | none => rfl
  | some n => exact List.take_of_length_le (by simpa [fits] using h)

theorem kept_of_not_fits {room : Option Nat} {bytes : List UInt8} (h : ¬fits room bytes)
    (more : List UInt8) :
    ¬fits room (bytes ++ more) ∧ kept room (bytes ++ more) = kept room bytes := by
  cases room with
  | none => simp [fits] at h
  | some n =>
    have hlength : n < bytes.length := by simpa [fits] using h
    exact ⟨by simp [fits]; omega, List.take_append_of_le_length (Nat.le_of_lt hlength)⟩

theorem on_appends (tree : FileTree) (hplace : place ≠ []) (room : Option Nat)
    (pieces : List (List Char)) (written : List UInt8) (h : fits room written) :
    (forM pieces fun piece => append room place (Text.encode piece)).on
        (tree.put place (.file written)) =
      (if fits room (written ++ Text.encode pieces.flatten) then .ok ()
        else .error (.output fullMessage.toList),
        tree.put place (.file (kept room (written ++ Text.encode pieces.flatten)))) := by
  induction pieces generalizing written with
  | nil =>
    have hnone : written ++ Text.encode [].flatten = written := by simp [Text.encode]
    rw [List.forM_nil, on_pure, hnone, if_pos h, kept_of_fits h]
  | cons piece rest ih =>
    have hall : written ++ Text.encode (piece :: rest).flatten =
        written ++ Text.encode piece ++ Text.encode rest.flatten := by
      rw [List.flatten_cons, Text.encode_append, List.append_assoc]
    rw [List.forM_cons, on_bind, on_append tree hplace, hall]
    by_cases hpiece : fits room (written ++ Text.encode piece)
    · rw [if_pos hpiece, kept_of_fits hpiece]
      exact ih _ hpiece
    · obtain ⟨hmore, hkept⟩ := kept_of_not_fits hpiece (Text.encode rest.flatten)
      rw [if_neg hpiece, if_neg hmore, hkept]

end Action

namespace MapArgs

open Synopsis.Command.Action

def report (args : MapArgs) (tree : FileTree) : Except Failure Report := do
  args.checkRoot tree
  let config ← args.resolve tree
  let job ← args.job config
  job.run tree

theorem deliver_printed {args : MapArgs} (h : args.output = none) (room : Option Nat) (r : Report) :
    (args.deliver room r).on tree = (.ok ⟨r.render, r.reduction⟩, tree) := by
  simp only [deliver, h, Document.flatten_pieces, on_pure, Report.render]

theorem deliver_refused {args : MapArgs} {path : List Char} {e : AccessError}
    (h : args.output = some path) (htarget : tree.target path = .error e) (room : Option Nat)
    (r : Report) : (args.deliver room r).on tree = (.error (.io e.message.toList), tree) := by
  simp only [deliver, h, on_bind, on_create, htarget]

theorem deliver_written {args : MapArgs} {path : List Char} (h : args.output = some path)
    (htarget : tree.target path = .ok place) (room : Option Nat) (r : Report) :
    (args.deliver room r).on tree =
      (if fits room (Text.encode r.render) then .ok ⟨[], r.reduction⟩
        else .error (.output fullMessage.toList),
        tree.put place (.file (kept room (Text.encode r.render)))) := by
  have hempty : fits room [] := by cases room <;> simp [fits]
  have hplace : place ≠ [] := FileTree.target_ne_nil htarget
  have hwritten := on_appends tree hplace room (Document.pieces r.files) [] hempty
  rw [List.nil_append, Document.flatten_pieces] at hwritten
  simp only [deliver, h, on_bind, on_create, htarget, hwritten, Report.render, on_pure]
  by_cases hfits : fits room (Text.encode (Document.render r.files)) <;> simp [hfits]

theorem perform_eq (args : MapArgs) (room : Option Nat) (tree : FileTree) :
    (args.perform room).on tree = match args.report tree with
      | .ok r => (args.deliver room r).on tree
      | .error e => (.error e, tree) := by
  simp only [perform, report, on_look_bind]
  simp only [bind, Except.bind]
  cases args.checkRoot tree with
  | error e => rfl
  | ok _ =>
    cases args.resolve tree with
    | error e => rfl
    | ok config =>
      dsimp only
      cases args.job config with
      | error e => rfl
      | ok job =>
        dsimp only
        cases job.run tree <;> rfl

def printing (args : MapArgs) : MapArgs := { args with output := none }

/-- The ways in which a run may end: what it comes to, and the files that it leaves behind. -/
inductive Ends (args : MapArgs) (room : Option Nat) (before : FileTree) :
    Except Failure Output → FileTree → Prop
  | failed {e : Failure} : args.report before = .error e → Ends args room before (.error e) before
  | printed {r : Report} : args.report before = .ok r → args.output = none →
      Ends args room before (.ok ⟨r.render, r.reduction⟩) before
  | refused {r : Report} {path : List Char} {e : AccessError} : args.report before = .ok r →
      args.output = some path → before.target path = .error e →
      Ends args room before (.error (.io e.message.toList)) before
  | written {r : Report} {path : List Char} {place : Place} : args.report before = .ok r →
      args.output = some path → before.target path = .ok place →
      fits room (Text.encode r.render) →
      Ends args room before (.ok ⟨[], r.reduction⟩)
        (before.put place (.file (Text.encode r.render)))
  | full {r : Report} {path : List Char} {place : Place} : args.report before = .ok r →
      args.output = some path → before.target path = .ok place →
      ¬fits room (Text.encode r.render) →
      Ends args room before (.error (.output fullMessage.toList))
        (before.put place (.file (kept room (Text.encode r.render))))

theorem perform_ends {args : MapArgs} {room : Option Nat} {before after : FileTree}
    {result : Except Failure Output} (h : (args.perform room).on before = (result, after)) :
    Ends args room before result after := by
  rw [perform_eq] at h
  cases hreport : args.report before with
  | error e =>
    rw [hreport] at h
    cases h
    exact .failed hreport
  | ok r =>
    rw [hreport] at h
    dsimp only at h
    cases houtput : args.output with
    | none =>
      rw [deliver_printed houtput] at h
      cases h
      exact .printed hreport houtput
    | some path =>
      cases htarget : before.target path with
      | error e =>
        rw [deliver_refused houtput htarget] at h
        cases h
        exact .refused hreport houtput htarget
      | ok place =>
        rw [deliver_written houtput htarget] at h
        by_cases hfits : fits room (Text.encode r.render)
        · rw [if_pos hfits, kept_of_fits hfits] at h
          cases h
          exact .written hreport houtput htarget hfits
        · rw [if_neg hfits] at h
          cases h
          exact .full hreport houtput htarget hfits

variable {args : MapArgs} {room : Option Nat} {before after : FileTree}

theorem perform_of_error {e : Failure} (h : args.report before = .error e) (room : Option Nat) :
    (args.perform room).on before = (.error e, before) := by
  rw [perform_eq, h]

theorem perform_printing {r : Report} (h : args.report before = .ok r) (room : Option Nat) :
    (args.printing.perform room).on before = (.ok ⟨r.render, r.reduction⟩, before) := by
  have hreport : args.printing.report before = .ok r := h
  rw [perform_eq, hreport]
  exact deliver_printed rfl room r

theorem unchanged_of_failed {e : Failure} (h : (args.perform room).on before = (.error e, after))
    (he : ∀ cause, e ≠ .output cause) : after = before := by
  cases perform_ends h with
  | failed | refused => rfl
  | full => exact absurd rfl (he _)

theorem unchanged_with_room {e : Failure} (h : (args.perform none).on before = (.error e, after)) :
    after = before := by
  cases perform_ends h with
  | failed | refused => rfl
  | full _ _ _ hfits => exact absurd rfl hfits

theorem changes_one_place {result : Except Failure Output}
    (h : (args.perform room).on before = (result, after)) : after = before ∨
      ∃ path place, args.output = some path ∧ before.target path = .ok place ∧
        FileTree.SameBeside place before after := by
  cases perform_ends h with
  | failed | printed | refused => exact .inl rfl
  | written _ houtput htarget | full _ houtput htarget =>
    exact .inr ⟨_, _, houtput, htarget, FileTree.put_sameBeside _ _ _⟩

theorem delivered_of_ok {output : Output}
    (h : (args.perform room).on before = (.ok output, after)) :
    ∃ r, args.report before = .ok r ∧ output.reduction = r.reduction ∧
      (args.output = none → output.printed = r.render ∧ after = before) ∧
      ∀ path, args.output = some path → output.printed = [] ∧
        ∃ place, FileTree.Wrote path (Text.encode r.render) before after place := by
  cases perform_ends h with
  | @printed r hreport hnone =>
    exact ⟨r, hreport, rfl, fun _ => ⟨rfl, rfl⟩, fun path hpath => by simp [hnone] at hpath⟩
  | @written r path place hreport houtput htarget =>
    refine ⟨r, hreport, rfl, fun hnone => by simp [hnone] at houtput, fun path' hpath => ⟨rfl, ?_⟩⟩
    obtain rfl : path = path' := Option.some.inj (houtput.symm.trans hpath)
    exact ⟨place, FileTree.put_wrote htarget _⟩

theorem succeeds_iff {r : Report} (hreport : args.report before = .ok r) :
    (∃ output after, (args.perform room).on before = (.ok output, after)) ↔
      ∀ path, args.output = some path →
        (∃ place, before.target path = .ok place) ∧ fits room (Text.encode r.render) := by
  rw [perform_eq, hreport]
  dsimp only
  cases houtput : args.output with
  | none => simp [deliver_printed houtput]
  | some path =>
    cases htarget : before.target path with
    | error e => simp [deliver_refused houtput htarget, htarget]
    | ok place =>
      rw [deliver_written houtput htarget]
      by_cases hfits : fits room (Text.encode r.render) <;> simp [hfits, htarget]

/-- The files change only at the place that the output path leads to, and not before everything else
went well. That place then holds the document of the files as they were, wherever it lies; a run
without an output path prints this document and changes nothing. A run that fails leaves the files
as they were, unless the device had no room for the document. -/
theorem map_changes_only_output (args : MapArgs) (room : Option Nat) (before : FileTree) :
    (∀ e, args.report before = .error e → (args.perform room).on before = (.error e, before)) ∧
    (∀ e after, (args.perform room).on before = (.error e, after) →
      (∀ cause, e ≠ .output cause) → after = before) ∧
    (∀ result after, (args.perform room).on before = (result, after) → after = before ∨
      ∃ path place, args.output = some path ∧ before.target path = .ok place ∧
        FileTree.SameBeside place before after) ∧
    (∀ output after, (args.perform room).on before = (.ok output, after) →
      ∃ r, args.report before = .ok r ∧ output.reduction = r.reduction ∧
        (args.output = none → output.printed = r.render ∧ after = before) ∧
        (∀ path, args.output = some path → output.printed = [] ∧
          ∃ place, FileTree.Wrote path (Text.encode r.render) before after place) ∧
        (args.printing.perform room).on before = (.ok ⟨r.render, r.reduction⟩, before)) ∧
    ∀ r, args.report before = .ok r →
      ((∃ output after, (args.perform room).on before = (.ok output, after)) ↔
        ∀ path, args.output = some path →
          (∃ place, before.target path = .ok place) ∧ fits room (Text.encode r.render)) := by
  refine ⟨fun e he => perform_of_error he room, fun e after h => unchanged_of_failed h,
    fun result after h => changes_one_place h, fun output after h => ?_,
    fun r hreport => succeeds_iff hreport⟩
  obtain ⟨r, hreport, hreduction, hprinted, hwritten⟩ := delivered_of_ok h
  exact ⟨r, hreport, hreduction, hprinted, hwritten, perform_printing hreport room⟩

def linkedTree : FileTree :=
  (FileTree.empty.addFile "a.txt".toList [104, 105]).addLink ['m'] "a.txt".toList

def linkedArgs : MapArgs := { output := some ['m'] }

def linkedReport : Report := ⟨[⟨"a.txt".toList, none, "hi".toList⟩], [], none⟩

def missingArgs : MapArgs := { linkedArgs with path := some ['b'] }

theorem map_changes_only_output_linked : linkedTree.Grounded ∧
    (∃ after, (linkedArgs.perform (some 200)).on linkedTree = (.ok ⟨[], none⟩, after) ∧
      after.get? ["a.txt".toList] = some (.file (Text.encode linkedReport.render)) ∧
      after.get? [['m']] = some (.link "a.txt".toList) ∧
      after.read ['m'] = .ok (Text.encode linkedReport.render)) ∧
    ∃ after, (missingArgs.perform (some 200)).on linkedTree =
      (.error (.pathNotFound ['b']), after) ∧ after = linkedTree := by
  have hreport : linkedArgs.report linkedTree = .ok linkedReport := by decide +kernel
  have hmissing : missingArgs.report linkedTree = .error (.pathNotFound ['b']) := by decide +kernel
  have htarget : linkedTree.target ['m'] = .ok ["a.txt".toList] := by decide +kernel
  have hfits : fits (some 200) (Text.encode linkedReport.render) = true := by decide +kernel
  have hgrounded : linkedTree.Grounded := of_decide_eq_true (by decide +kernel)
  refine ⟨hgrounded, ?_, ?_⟩
  · obtain ⟨-, -, -, hdone, hsucceeds⟩ :=
      map_changes_only_output linkedArgs (some 200) linkedTree
    obtain ⟨output, after, hrun⟩ := (hsucceeds _ hreport).mpr fun path hpath => by
      cases hpath
      exact ⟨⟨_, htarget⟩, hfits⟩
    obtain ⟨r, hr, hreduction, -, hwrote, -⟩ := hdone output after hrun
    obtain rfl : linkedReport = r := Except.ok.inj (hreport.symm.trans hr)
    obtain ⟨hprinted, place, hplaced⟩ := hwrote ['m'] rfl
    obtain rfl : ["a.txt".toList] = place := Except.ok.inj (htarget.symm.trans hplaced.target)
    have houtput : output = ⟨[], none⟩ := by
      cases output
      cases hprinted
      cases hreduction
      rfl
    have hlink : linkedTree.get? [['m']] = some (.link "a.txt".toList) := by decide +kernel
    refine ⟨after, houtput ▸ hrun, hplaced.holds, ?_, hplaced.read hgrounded⟩
    exact (hplaced.others.others [['m']] (by decide)).trans hlink
  · obtain ⟨hfailed, hunchanged, -⟩ := map_changes_only_output missingArgs (some 200) linkedTree
    have hrun := hfailed _ hmissing
    have hcause : ∀ cause, Failure.pathNotFound ['b'] ≠ .output cause := by
      intro cause he
      cases he
    exact ⟨linkedTree, hrun, hunchanged _ _ hrun hcause⟩

end MapArgs

/-- The files that a failed request leaves behind may be dropped: they are those from before it. -/
theorem Request.unchanged_of_failed {request : Request} {before after : FileTree} {e : Failure}
    (h : (request.perform none).on before = (.error e, after)) : after = before := by
  cases request with
  | map args => exact MapArgs.unchanged_with_room h
  | languages | completions | help | version => cases h

end Synopsis.Command
