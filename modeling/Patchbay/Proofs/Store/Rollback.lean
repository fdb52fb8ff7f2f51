import Patchbay.Store.Work
/-!
# What is left of work that fails

What a statement has written stays when the work fails later. So a request that fails leaves a
catalogue as it was for one of three reasons: it has only asked until then, it has carried out one
statement, which has written nothing, or its statements are in a transaction. This is so whatever
stands against the statements.

Where nothing stands against them, work is a function from catalogues to catalogues that may fail,
and its parts are put together as such functions are.

## Main definitions

* `Work.Safe`: work that fails leaves the catalogue as it was.
* `Work.result`: what work comes to where nothing stands against its statements.

## Main statements

* `Work.safe_transaction`: whatever is done in a transaction is safe.
* `Work.safe_create`, `Work.safe_update`, `Work.safe_delete`, `Work.safe_save`,
  `Work.safe_deleteVersion`, `Work.safe_prune`: so is every request.
* `Work.result_create` and its kin: what the requests come to.
-/
namespace Patchbay.Store
namespace Work
variable {α β : Type} {w : Work α} {f : α → Work β} {t : Trouble} {c d : Catalogue}

/-! ### Work that fails -/

/-- Work that fails leaves the catalogue as it was, whatever stands against its statements. -/
def Safe (w : Work α) : Prop := ∀ t c e d, w.run t c = (.error e, d) → d = c

theorem safe_throw (e : Error) : Safe (throw e : Work α) := by
  intro t c e d h
  cases h
  rfl

/-- What follows a question does not find a changed catalogue. -/
theorem safe_ask_bind {q : Catalogue → Except Error α} (hf : ∀ a, Safe (f a)) :
    Safe (ask q >>= f) := by
  intro t c e d h
  rw [run_bind, run_ask] at h
  cases hq : q c with
  | error e =>
    rw [hq] at h
    cases h
    rfl
  | ok a =>
    rw [hq] at h
    exact hf a t c e d h

/-- A statement that fails has written nothing. One that is carried out may be followed by a failure
only if it has written nothing either. -/
theorem safe_write_bind {s : Statement} {g : Catalogue → α × Catalogue}
    (h : ∀ t c e d, (f (g c).1).run t (g c).2 = (.error e, d) → d = c) :
    Safe (write s g >>= f) := by
  intro t c e d hrun
  rw [run_bind, run_write] at hrun
  cases hp : c.permit with
  | error e =>
    rw [hp] at hrun
    cases hrun
    rfl
  | ok u =>
    cases ht : t s with
    | some o =>
      rw [hp, ht] at hrun
      cases hrun
      rfl
    | none =>
      rw [hp, ht] at hrun
      exact h t c e d hrun

/-- A transaction takes back what was written in it, whatever that was. -/
theorem safe_transaction (w : Work α) : Safe (transaction w) := by
  intro t c e d h
  rw [run_transaction] at h
  split at h <;> cases h <;> rfl

/-- What follows work that is safe does not fail. -/
theorem Safe.bind_pure (hw : Safe w) (g : α → β) : Safe (w >>= fun a => pure (g a)) := by
  intro t c e d h
  rw [run_bind] at h
  cases hr : w.run t c with
  | mk r d' =>
    rw [hr] at h
    cases r with
    | error e' =>
      cases h
      exact hw t c e d hr
    | ok a => cases h

theorem Safe.map (hw : Safe w) (g : α → β) : Safe (g <$> w) := by
  rw [map_eq_pure_bind]
  exact hw.bind_pure g

/-! ### Requests -/

variable (now : Timestamp) (m : Metadata) (slug : String)

theorem safe_create : Safe (create now m) := by
  refine safe_ask_bind fun b => ?_
  cases b with
  | true => exact safe_throw _
  | false => exact safe_write_bind fun t c e d h => by cases h

/-- If no graph is found, then none has changed. -/
theorem safe_update : Safe (update now m) := by
  refine safe_ask_bind fun _ => safe_write_bind fun t c e d h => ?_
  simp only at h
  split at h
  · next hnone =>
    cases h
    have hsame (g : Row → Row) :
        (c.graphs.map fun r => if r.slug = Text.untilNul m.slug then g r else r) = c.graphs := by
      refine (List.map_congr_left fun r hr => if_neg ?_).trans (List.map_id' _)
      simpa using List.countP_eq_zero.1 hnone r hr
    rw [hsame]
  · cases h

theorem safe_delete : Safe (delete slug) :=
  safe_ask_bind fun _ => safe_write_bind fun t c e d h => by cases h

theorem safe_save (g : Graph) (name : Option String) : Safe (save now slug g name) := by
  refine safe_ask_bind fun o => ?_
  cases o with
  | none => exact safe_throw _
  | some m =>
    simp only
    split
    · exact safe_throw _
    · exact (safe_transaction _).bind_pure _

theorem safe_deleteVersion (id : Int64) : Safe (deleteVersion id) :=
  safe_ask_bind fun _ => safe_write_bind fun t c e d h => by cases h

theorem safe_prune (keep : Nat) : Safe (prune slug keep) :=
  safe_ask_bind fun _ => safe_write_bind fun t c e d h => by cases h

/-! ### Work that nothing stands against -/

/-- What work comes to where nothing stands against its statements: its answer with the catalogue
afterwards, or its error. -/
def result (w : Work α) (c : Catalogue) : Except Error (α × Catalogue) :=
  match w.run .never c with
  | (.ok a, d) => .ok (a, d)
  | (.error e, _) => .error e

theorem result_eq_ok_iff {a : α} : w.result c = .ok (a, d) ↔ w.run .never c = (.ok a, d) := by
  rw [result]
  rcases w.run .never c with ⟨_ | _, _⟩ <;> simp

@[simp] theorem result_pure (a : α) (c : Catalogue) : (pure a : Work α).result c = .ok (a, c) := rfl

@[simp] theorem result_throw (e : Error) (c : Catalogue) :
    (throw e : Work α).result c = .error e := rfl

theorem result_ask_bind (q : Catalogue → Except Error α) (f : α → Work β) (c : Catalogue) :
    (ask q >>= f).result c = q c >>= fun a => (f a).result c := by
  rw [result, run_bind, run_ask]
  cases q c <;> rfl

/-- What a statement writes is there for what follows. -/
theorem result_write_bind (s : Statement) (g : Catalogue → α × Catalogue) (f : α → Work β)
    (c : Catalogue) :
    (write s g >>= f).result c = c.permit >>= fun _ => (f (g c).1).result (g c).2 := by
  rw [result, run_bind, run_write]
  cases c.permit <;> rfl

/-- What is done in a transaction comes to what it comes to without one. -/
theorem result_transaction_bind (w : Work α) (f : α → Work β) (c : Catalogue) :
    (transaction w >>= f).result c = w.result c >>= fun r => (f r.1).result r.2 := by
  rw [result, result, run_bind, run_transaction]
  cases w.run .never c with
  | mk r d => cases r <;> rfl

theorem result_map (w : Work α) (g : α → β) (c : Catalogue) :
    (g <$> w).result c = (w.result c).map fun r => (g r.1, r.2) := by
  rw [map_eq_pure_bind, result, result, run_bind]
  cases w.run .never c with
  | mk r d => cases r <;> rfl

/-- What is there after work that is safe: what it came to, or what was there before. -/
theorem Safe.run_eq (hw : Safe w) (c : Catalogue) :
    (w.run .never c).2 = ((w.result c).toOption.map (·.2)).getD c := by
  rw [result]
  cases hr : w.run .never c with
  | mk r d =>
    cases r with
    | ok a => rfl
    | error e => exact hw _ c e d hr

/-! ### What requests come to -/

variable (c)

theorem result_create : (create now m).result c = do
    if ← c.has m.slug then throw (.duplicate m.slug)
    c.permit
    return (((), [.info ("Created graph '" ++ m.slug ++ "'")]), { c with
      graphs := c.graphs ++ [
        { slug := Text.untilNul m.slug, name := Text.untilNul m.name
          description := Text.untilNul m.description, category := m.category.label
          created := now.utc, updated := now.utc }] }) := by
  rw [create, result_ask_bind]
  refine bind_congr fun b => ?_
  cases b with
  | true => rfl
  | false => exact result_write_bind _ _ _ c

theorem result_update : (update now m).result c = do
    c.need .update
    c.permit
    if c.graphs.countP (·.slug = Text.untilNul m.slug) = 0 then throw (.unknownGraph m.slug)
    return (((), []), { c with
      graphs := c.graphs.map fun r => if r.slug = Text.untilNul m.slug then { r with
        name := Text.untilNul m.name, description := Text.untilNul m.description
        category := m.category.label, updated := now.utc } else r }) := by
  rw [update, result_ask_bind]
  refine bind_congr fun _ => (result_write_bind _ _ _ c).trans (bind_congr fun _ => ?_)
  simp only
  split <;> rfl

theorem result_delete : (delete slug).result c = do
    c.need .delete
    c.permit
    return (((), if c.graphs.filter (·.slug = Text.untilNul slug) = [] then [] else
        [.info ("Deleted graph '" ++ slug ++ "'")]), { c with
      graphs := c.graphs.filter (·.slug ≠ Text.untilNul slug)
      versions := c.versions.filter fun v =>
        v.slug ∉ (c.graphs.filter (·.slug = Text.untilNul slug)).map (·.slug) }) := by
  rw [delete, result_ask_bind]
  refine bind_congr fun _ => (result_write_bind _ _ _ c).trans (bind_congr fun _ => ?_)
  simp only [List.length_eq_zero_iff]
  rfl

theorem result_save (g : Graph) (name : Option String) : (save now slug g name).result c = do
    match ← c.get slug with
    | none => throw (.unknownGraph slug)
    | some m =>
      if m.category ≠ g.category then throw (.otherCategory slug m.category g.category)
      c.permit
      return ((c.lastId + 1,
          [.info ("Saved '" ++ slug ++ "' version " ++ Numeral.natText (c.lastId + 1) ++ " (" ++
            Numeral.natText g.members.length ++ " nodes)")]), { c with
        graphs := c.graphs.map fun r =>
          if r.slug = Text.untilNul slug then { r with updated := now.utc } else r
        versions := c.versions ++ [
          { id := c.lastId + 1, slug := Text.untilNul slug, name := name.map Text.untilNul
            document := (Document.ofGraph g).print none
            nodes := g.members.length, connections := g.links.length, created := now.utc }]
        lastId := c.lastId + 1 }) := by
  rw [save, result_ask_bind]
  refine bind_congr fun o => ?_
  cases o with
  | none => rfl
  | some m =>
    simp only
    split
    · rfl
    refine (result_transaction_bind _ _ c).trans ?_
    rw [insertVersion, result_write_bind]
    cases hpermit : c.permit with
    | error e => rfl
    | ok u =>
      -- what is permitted once is permitted twice
      change (updateGraphs _ slug _ >>= _).result _ >>= _ = _
      rw [updateGraphs, result_write_bind]
      exact congrArg (· >>= _) (congrArg (· >>= _) hpermit)

theorem result_deleteVersion (id : Int64) : (deleteVersion id).result c = do
    c.need .deleteVersion
    c.permit
    return (((), []), { c with
      versions := c.versions.filter fun v => (v.id : Int) ≠ id.toInt }) := by
  rw [deleteVersion, result_ask_bind]
  refine bind_congr fun _ => (result_write_bind _ _ _ c).trans (bind_congr fun _ => ?_)
  simp only [decide_not]
  rfl

theorem result_prune (keep : Nat) : (prune slug keep).result c = do
    c.need .prune
    c.permit
    return ((c.versions.countP (isOld slug keep c),
        if c.versions.countP (isOld slug keep c) = 0 then [] else
          [.info ("Pruned " ++ Numeral.natText (c.versions.countP (isOld slug keep c)) ++
            " old version(s) of '" ++ slug ++ "'")]), { c with
      versions := c.versions.filter fun v => !isOld slug keep c v }) := by
  rw [prune, result_ask_bind]
  exact bind_congr fun _ => result_write_bind _ _ _ c

end Work
end Patchbay.Store
