import ProbeAtlas.Proofs.Census
import ProbeAtlas.Report

/-!
# ProbeAtlas — the document of a report

A report is written as an object. `CoreSection.WrittenAs` says under which keys the parts of a core's section
are found in its object, and in which form; `QualifiedSection.WrittenAs` says so of all sections together. The
parameters come first, under the keys of their slots, and a look-up finds the first entry of a key. So the
address, the places of the probes and the signals are found only because no slot of a core has one of their
keys.

Main results:

* `Core.FromTable.writtenAs` — the section of a core that was read from its table is written out in full.
* `Report.toValue_qualified` — the document of a report on a design that qualified.
-/

namespace ProbeAtlas

-- ---------------------------------------------------------------------------
-- Parameters
-- ---------------------------------------------------------------------------

/-- The object has the parameters under their keys: short words as numbers, long words as decimals, so that
no bit is lost, and texts as they are. -/
structure ParamsWritten (params : List (String × ParamValue)) (v : Value) : Prop where
  word32 : ∀ key n, Entries.get? params key = some (.word32 n) → v.field? key = some (.ofNat n)
  word64 : ∀ key n, Entries.get? params key = some (.word64 n) →
             v.field? key = some (.string (toString n))
  text   : ∀ key t, Entries.get? params key = some (.text t) → v.field? key = some (.string t)

namespace Report

theorem keys_paramEntries (params : List (String × ParamValue)) :
    (paramEntries params).map Prod.fst = params.map Prod.fst := by
  rw [paramEntries, List.map_map]
  rfl

theorem get?_paramEntries (params : List (String × ParamValue)) (key : String) :
    Entries.get? (paramEntries params) key = (Entries.get? params key).map paramValue :=
  Entries.get?_map_snd paramValue params key

/-- Parameters are found whatever is written behind them. -/
theorem paramsWritten (params : List (String × ParamValue)) (rest : List (String × Value)) :
    ParamsWritten params (.object (paramEntries params ++ rest)) := by
  have hField : ∀ key v, Entries.get? params key = some v →
      (Value.object (paramEntries params ++ rest)).field? key = some (paramValue v) := by
    intro key v hv
    show Entries.get? (paramEntries params ++ rest) key = _
    rw [Entries.get?_append, get?_paramEntries, hv, Option.map_some, Option.some_or]
  exact ⟨fun key n => hField key _, fun key n => hField key _, fun key t => hField key _⟩

/-- What is written behind the parameters is found under keys that no parameter has. -/
theorem get?_behind_params {params : List (String × ParamValue)} {key : String}
    (hKey : key ∉ params.map Prod.fst) (rest : List (String × Value)) :
    Entries.get? (paramEntries params ++ rest) key = Entries.get? rest key := by
  rw [Entries.get?_append, get?_paramEntries, Entries.get?_eq_none_iff.mpr hKey, Option.map_none,
    Option.none_or]

end Report

-- ---------------------------------------------------------------------------
-- Sections
-- ---------------------------------------------------------------------------

/-- The object is the section as it is written: the parameters, the address, the places of the probes, if
the section has them, and the signals, and nothing else. -/
structure CoreSection.WrittenAs (sec : CoreSection) (v : Value) : Prop where
  keys      : v.entries.map Prod.fst = sec.params.map Prod.fst ++ "addr" ::
                ((sec.probeInfo.map fun _ => "probe_info").toList ++ ["probes"])
  params    : ParamsWritten sec.params v
  address   : v.field? "addr" = some (.ofNat sec.address)
  probeInfo : v.field? "probe_info" = sec.probeInfo.map fun infos => .array (infos.map fun p =>
                .object [("index", .ofNat p.index), ("offset", .ofNat p.offset),
                  ("width", .ofNat p.width)])
  signals   : v.field? "probes" = some (.ofStrings sec.signals)

/-- **A section is written out in full** if no parameter has one of the keys behind them. -/
theorem CoreSection.writtenAs_coreValue {sec : CoreSection}
    (hKeys : ∀ key ∈ ["addr", "probe_info", "probes"], key ∉ sec.params.map Prod.fst) :
    sec.WrittenAs (Report.coreValue sec) := by
  have hObject : Report.coreValue sec = .object (Report.paramEntries sec.params ++
      ("addr", .ofNat sec.address) ::
        ((sec.probeInfo.map fun info => ("probe_info", Value.array (info.map Report.probeInfoValue))).toList ++
          [("probes", .ofStrings sec.signals)])) := by
    simp [Report.coreValue]
  have hField : ∀ key ∈ ["addr", "probe_info", "probes"], ∀ rest,
      (Value.object (Report.paramEntries sec.params ++ rest)).field? key = Entries.get? rest key :=
    fun key hKey => Report.get?_behind_params (hKeys key hKey)
  rw [hObject]
  refine
    { keys := ?keys, params := Report.paramsWritten _ _, address := ?address, probeInfo := ?probeInfo
      signals := ?signals }
  case keys =>
    rw [Value.entries, List.map_append, Report.keys_paramEntries]
    cases sec.probeInfo <;> rfl
  case address =>
    rw [hField "addr" (by simp)]
    rfl
  case probeInfo =>
    rw [hField "probe_info" (by simp)]
    cases sec.probeInfo <;> rfl
  case signals =>
    rw [hField "probes" (by simp)]
    cases sec.probeInfo <;> rfl

/-- A table shows nothing but its slots. -/
theorem ParamTable.mem_keys_entries {t : ParamTable} {key : String} (h : key ∈ t.entries.map Prod.fst) :
    key ∈ t.slots.map Slot.key := by
  rw [entries, Entries.mem_keys_ofPairs] at h
  obtain ⟨e, he, rfl⟩ := List.mem_map.mp h
  obtain ⟨slot, hSlot, hEntry⟩ := List.mem_filterMap.mp he
  split at hEntry
  · cases hEntry
  · obtain ⟨v, -, rfl⟩ := Option.map_eq_some_iff.mp hEntry
    exact List.mem_map_of_mem hSlot

/-- **The section of a core that was read from its table is written out in full.** -/
theorem Core.FromTable.writtenAs {c : Core} (h : c.FromTable) {sec : CoreSection}
    (hParams : sec.params = c.params.entries) : sec.WrittenAs (Report.coreValue sec) := by
  have hSlots : ∀ key ∈ ["addr", "probe_info", "probes"], key ∉ Slot.coreSlots.map Slot.key := by decide
  refine CoreSection.writtenAs_coreValue fun key hKey hMem => hSlots key hKey ?_
  rw [hParams] at hMem
  rw [← h.slots]
  exact ParamTable.mem_keys_entries hMem

-- ---------------------------------------------------------------------------
-- Documents
-- ---------------------------------------------------------------------------

/-- The objects are the sections of the cores as they are written, and the entries are those of the section of
the subsystem. -/
structure QualifiedSection.WrittenAs (q : QualifiedSection) (sections : List Value)
    (hub : List (String × Value)) : Prop where
  cores     : List.Forall₂ CoreSection.WrittenAs q.cores sections
  keys      : hub.map Prod.fst = q.subsystem.map Prod.fst
  subsystem : ParamsWritten q.subsystem (.object hub)

/-- **The document of a report on a design that qualified**, where every section is written out in full. -/
theorem Report.toValue_qualified {r : Report} {q : QualifiedSection} (h : r.qualified = some q)
    (hCores : ∀ sec ∈ q.cores, sec.WrittenAs (coreValue sec)) :
    ∃ sections hub, r.toValue = .object [("messages", .ofStrings r.messages), ("ocla", .array sections),
      ("ocla_debug_subsystem", .object hub)] ∧ q.WrittenAs sections hub := by
  refine ⟨q.cores.map coreValue, paramEntries q.subsystem, by rw [toValue, h], ?_, keys_paramEntries _, ?_⟩
  · rw [List.forall₂_map_right_iff, List.forall₂_same]
    exact hCores
  · rw [← List.append_nil (paramEntries q.subsystem)]
    exact paramsWritten q.subsystem []

end ProbeAtlas
