/-
# What loading a file computes

Without failing allocations `samconfLoad` faults or returns, and the tree that it
returns was made from a document or from the environment. The nodes of such a tree
can all be copied. To be merged it lacks at most a `root` above its nodes, and where
it does a merge reads past the top; so a merge that completes has put every entry.
-/

import Samconf.Model.Load
import Samconf.Spec.Find
import Samconf.Spec.Growth
import Samconf.Spec.MergeList

namespace Samconf

open Foundation
open Exec (Yields Settles Faults)

/-! ## Merges that complete -/

section Merge

variable {config configToMerge : Config}

theorem Config.Keyed.exists_key (h : config.Keyed) {p : List ℕ} {s : Config}
    (hp : p ≠ []) (hs : config.sub? p = some s) : ∃ key, s.label.key = some key := by
  obtain ⟨keys, hkeys⟩ := RoseTree.exists_keysAt h hs
  have hlength := RoseTree.length_keysAt hkeys
  rcases List.eq_nil_or_concat keys with rfl | ⟨above, key, rfl⟩
  · exact absurd (List.length_eq_zero_iff.mp hlength.symm) hp
  · rw [List.concat_eq_append] at hkeys
    obtain ⟨-, node, hnode, hkey⟩ := RoseTree.map_key_ancestors hkeys
    obtain rfl := Option.some.inj (hs.symm.trans hnode)
    exact ⟨key, hkey⟩

/-- When every node has a path, `root` is above all of them. -/
theorem Config.rootAbove_of_nodePath
    (h : ∀ p ∈ config.descendants, ∃ path, nodePath config p = .ok path) : config.RootAbove := by
  by_cases htop : config.label.key = some rootKey
  · exact .inl htop
  refine .inr fun c hc => ?_
  obtain ⟨i, hi⟩ := List.mem_iff_getElem?.mp hc
  have hs : config.sub? [i] = some c := by simp [hi]
  obtain ⟨path, hpath⟩ := h [i] (RoseTree.mem_descendants.mpr ⟨by simp, c, hs⟩)
  rw [nodePath, hs] at hpath
  cases hkey : c.label.key with
  | none => simp [hkey] at hpath
  | some key =>
      by_cases hroot : key = rootKey
      · rw [hroot]
      · -- the climb from a child of the top looks at the top alone
        simp only [hkey, hroot, if_false] at hpath
        rw [RoseTree.ancestors_cons, hi] at hpath
        cases htopKey : config.label.key with
        | none => simp [climbPath, htopKey] at hpath
        | some top =>
            have hother : top ≠ rootKey := fun heq => htop (heq ▸ htopKey)
            simp [climbPath, htopKey, hother] at hpath

/-- Among the nodes still ahead is a STRING without a string, and every node before it
has a path. -/
def Config.NullStringAhead (config : Config) (rest : List (List ℕ)) : Prop :=
  ∃ before p after s, rest = before ++ p :: after ∧ config.sub? p = some s ∧
    ¬ s.label.StringSet ∧ ∀ q ∈ before, ∃ path, HasPath config q path

theorem Config.nullStringAhead_cons {p : List ℕ} {rest : List (List ℕ)} {s : Config}
    (hs : config.sub? p = some s) :
    config.NullStringAhead (p :: rest) ↔
      ¬ s.label.StringSet ∨ (∃ path, HasPath config p path) ∧ config.NullStringAhead rest := by
  constructor
  · rintro ⟨before, q, after, t, hsplit, ht, hnull, hpaths⟩
    cases before with
    | nil =>
        obtain ⟨rfl, -⟩ : p = q ∧ rest = after := by simpa using hsplit
        obtain rfl := Option.some.inj (hs.symm.trans ht)
        exact .inl hnull
    | cons r before =>
        obtain ⟨rfl, hrest⟩ : p = r ∧ rest = before ++ q :: after := by simpa using hsplit
        obtain ⟨hpath, hbefore⟩ := List.forall_mem_cons.mp hpaths
        exact .inr ⟨hpath, before, q, after, t, hrest, ht, hnull, hbefore⟩
  · rintro (hnull | ⟨hpath, before, q, after, t, hrest, ht, hnull, hbefore⟩)
    · exact ⟨[], p, rest, s, rfl, hs, hnull, by simp⟩
    · exact ⟨p :: before, q, after, t, by rw [hrest]; rfl, ht, hnull,
        List.forall_mem_cons.mpr ⟨hpath, hbefore⟩⟩

theorem Config.Copyable.not_nullStringAhead (h : config.Copyable) (rest : List (List ℕ)) :
    ¬ config.NullStringAhead rest := by
  rintro ⟨_, p, _, s, -, hs, hnull, -⟩
  exact hnull (h.stringsSet p s hs)

/-- A round whose node can be copied but has no path faults. -/
theorem mergeNode_faults {e : Fault} {p : List ℕ} {s : Config}
    (hs : configToMerge.sub? p = some s) (hkey : s.label.key ≠ none)
    (htagged : s.label.Tagged) (hset : s.label.StringSet)
    (hpath : nodePath configToMerge p = .error e) (config : Config) :
    (mergeNode configToMerge p config).Faults e := by
  rw [mergeNode]
  apply samconfConfigNew_yields.bind_faults
  simp only [hs, deref_some, Exec.pure_bind]
  apply (samconfConfigCopyConfig_yields hkey htagged hset).bind_faults
  simp only [ne_eq, not_true_eq_false, if_false]
  exact (samconfPathGetPath_faults hpath).bind _

/-- The loop faults when one of the nodes still ahead has no path, unless it stops at a
STRING without a string before that. -/
theorem mergeRounds_faults {configToFind : List ℕ} {before rest : List (List ℕ)}
    (handled : List (List ℕ)) {n : ℕ} (hmerge : configToMerge.Sound)
    (htags : configToMerge.Tagged)
    (hsplit : configToMerge.positions = before ++ configToFind :: rest)
    (hrest : ∀ p ∈ rest, p ∈ configToMerge.descendants) (hn : rest.length < n)
    (hsound : config.Sound) (htagged : config.Tagged)
    (hset : ¬ configToMerge.NullStringAhead rest)
    (h : ∃ p ∈ rest, ∃ e, nodePath configToMerge p = .error e) :
    ∃ e, (Exec.loop .endless (mergeStep configToMerge) n ⟨config, configToFind, handled⟩).Faults
      e := by
  induction rest generalizing config configToFind before handled n with
  | nil => simp at h
  | cons p rest ih =>
      cases n with
      | zero => omega
      | succ n =>
          have hp := hrest p List.mem_cons_self
          obtain ⟨hne, s, hs⟩ := RoseTree.mem_descendants.mp hp
          obtain ⟨key, hkey⟩ := hmerge.keyed.exists_key hne hs
          rw [Config.nullStringAhead_cons hs, not_or, not_not] at hset
          rw [Exec.loop, mergeStep_of_next hmerge.counted.readable hsplit, Exec.bind_assoc]
          cases hpath : nodePath configToMerge p with
          | error e =>
              have hround := mergeNode_faults hs (by simp [hkey]) (htags p s hs) hset.1 hpath config
              exact ⟨e, hround.bind _⟩
          | ok path =>
              have hentry : Entry.Placeable (pathSegments path, s.label) :=
                ⟨(nodePath_segments hs hpath).1, by simp [hkey], htags p s hs, hset.1⟩
              have hround := mergeNode_yields_of_path hpath hs hentry hsound htagged
              have hsplit' : configToMerge.positions =
                  (before ++ [configToFind]) ++ p :: rest := by simpa using hsplit
              have hahead : ∃ q ∈ rest, ∃ e, nodePath configToMerge q = .error e := by
                obtain ⟨q, hq, e, he⟩ := h
                rcases List.mem_cons.mp hq with rfl | hq
                · rw [hpath] at he
                  cases he
                · exact ⟨q, hq, e, he⟩
              have hset' : ¬ configToMerge.NullStringAhead rest := fun hnull =>
                hset.2 ⟨⟨path, samconfPathGetPath_yields hpath⟩, hnull⟩
              rcases ih (handled ++ [p]) hsplit'
                (fun q hq => hrest q (List.mem_cons_of_mem p hq)) (Nat.lt_of_succ_lt_succ hn)
                (hsound.put hentry) (htagged.put hentry) hset' hahead with ⟨e, hlater⟩
              exact ⟨e, hround.bind_faults hlater⟩

/-- **A merge faults or completes**, and an admitted one completes only when the tree
can be merged. -/
theorem samconfConfigMergeConfig_cases (hsound : config.Sound) (htagged : config.Tagged)
    (hmerge : configToMerge.Copyable) :
    (∃ e, (samconfConfigMergeConfig config (some configToMerge)).Faults e) ∨
      (samconfConfigMergeConfig config (some configToMerge)).Yields
          (mergeStatus config configToMerge, config.stepByPath configToMerge) ∧
        (followsMergeRule config configToMerge = true → configToMerge.Placeable) := by
  cases hrule : followsMergeRule config configToMerge with
  | false =>
      refine .inr ⟨?_, by simp⟩
      simp only [mergeStatus, Config.stepByPath, hrule, Bool.false_eq_true, if_false]
      rw [samconfConfigMergeConfig, mergeConfig_of_not_rule hrule]
      exact Exec.yields_pure _
  | true =>
      by_cases hall : ∀ p ∈ configToMerge.descendants,
        ∃ path, nodePath configToMerge p = .ok path
      · have hplaceable := hmerge.placeable (Config.rootAbove_of_nodePath hall)
        exact .inr ⟨samconfConfigMergeConfig_stepByPath hsound htagged hplaceable,
          fun _ => hplaceable⟩
      · left
        have hsplit : configToMerge.positions = [] ++ [] :: configToMerge.descendants :=
          RoseTree.positions_eq configToMerge
        have hmissing : ∃ p ∈ configToMerge.descendants, ∃ e,
            nodePath configToMerge p = .error e := by
          simp only [not_forall, not_exists] at hall
          obtain ⟨p, hp, hnone⟩ := hall
          cases hpath : nodePath configToMerge p with
          | error e => exact ⟨p, hp, e, hpath⟩
          | ok path => exact absurd hpath (hnone path)
        rcases mergeRounds_faults [] (n := configToMerge.positions.length) hmerge.toSound
          hmerge.tagged hsplit (fun p hp => hp) (by simp [hsplit]) hsound htagged
          (hmerge.not_nullStringAhead _) hmissing with ⟨e, hfaults⟩
        refine ⟨e, ?_⟩
        rw [samconfConfigMergeConfig]
        apply Faults.bind
        simpa [mergeConfig, hrule] using hfaults

end Merge

/-! ## Runs that settle -/

theorem deref_settles {α : Type} (fault : Fault) (a : Option α) : (deref fault a).Settles := by
  cases a with
  | none => exact Exec.settles_fault fault
  | some a => exact Exec.settles_pure a

theorem samconfUriNew_settles (regexec : Regexec) (uriString : CString) :
    (samconfUriNew regexec uriString).Settles := by
  rw [samconfUriNew]
  apply Exec.yields_alloc.bind_settles
  simp only [if_true, samconfUriInit]
  cases regexec uriString with
  | none => exact Exec.settles_pure _
  | some pmatch =>
      repeat apply (Exec.yields_allocFor _).bind_settles
      exact Exec.settles_pure _

theorem scanPadding_settles (buffer : CString) (index : ℕ) (outLen : ℤ) (padding : ℕ) :
    (scanPadding buffer index outLen padding).Settles := by
  induction index generalizing outLen padding with
  | zero => exact Exec.settles_fault _
  | succ index ih =>
      rw [scanPadding]
      split
      · split
        · exact Exec.settles_pure _
        · exact ih _ _
      · exact Exec.settles_pure _

theorem samconfBase64Decode_settles (crypto : Crypto) (buffer : CString) (start : ℕ) :
    (samconfBase64Decode crypto buffer start).Settles := by
  rw [samconfBase64Decode]
  split
  · exact Exec.settles_fault _
  · apply Exec.yields_alloc.bind_settles
    simp only [if_true]
    cases crypto.decodeBlock (buffer.drop start) with
    | none => exact Exec.settles_pure _
    | some decoded =>
        refine (scanPadding_settles _ _ _ _).bind fun r _ => ?_
        split <;> exact Exec.settles_pure _

theorem verifyWithUri_settles (crypto : Crypto) (data : List Char) (uri : Uri) :
    (verifyWithUri crypto data uri).Settles := by
  rw [verifyWithUri]
  rcases samconfLoadPublicKey crypto with ⟨status, pKey⟩
  cases pKey with
  | none => exact Exec.settles_pure _
  | some pKey =>
      apply Exec.yields_alloc.bind_settles
      simp only [if_true]
      refine (deref_settles _ _).bind fun path _ => ?_
      refine (samconfBase64Decode_settles _ _ _).bind fun decoded _ => ?_
      split
      · refine (deref_settles _ _).bind fun scheme _ => ?_
        cases crypto.digestByName (digestName scheme) with
        | none => exact Exec.settles_pure _
        | some sigAlg =>
            simp only
            split
            · split
              · split <;> exact Exec.settles_pure _
              · exact Exec.settles_pure _
            · exact Exec.settles_pure _
      · exact Exec.settles_pure _

theorem samconfVerifySignature_settles (files : FileSystem) (regexec : Regexec) (crypto : Crypto)
    (location : CString) : (samconfVerifySignature files regexec crypto location).Settles := by
  have hloader : (samconfSignatureLoaderGetSignatureFor files location).Settles := by
    rw [samconfSignatureLoaderGetSignatureFor]
    apply Exec.yields_alloc.bind_settles
    simp only [if_true]
    split
    · cases files.readFile (signatureFile location) <;> exact Exec.settles_pure _
    · exact Exec.settles_pure _
  rw [samconfVerifySignature]
  refine hloader.bind fun found _ => ?_
  rcases found with ⟨status, signature⟩
  simp only
  split
  · cases files.readFile location with
    | none => exact Exec.settles_pure _
    | some data =>
        refine (samconfUriNew_settles regexec _).bind fun r _ => ?_
        rcases r with ⟨secStatus, uri⟩
        cases uri with
        | none => exact Exec.settles_pure _
        | some uri =>
            simp only
            split
            · exact verifyWithUri_settles crypto data uri
            · exact Exec.settles_pure _
  · exact Exec.settles_pure _

/-! ## Backends -/

/-- The tree of a load of the environment is keyed `root`, and its nodes can all be
copied. -/
theorem samconfEnvBackendLoad_copyable {strtod : CString → Double × CString}
    {environ : List CString} {uri : Uri} {isSigned : Bool} {config : Config}
    (hload : (samconfEnvBackendLoad strtod environ uri isSigned).Yields (.ok, some config)) :
    config.Copyable := by
  rcases exists_filter hload with ⟨filter, hfilter⟩
  obtain ⟨husable, rfl⟩ := (samconfEnvBackendLoad_yields_iff hfilter).mp hload
  have hvariables : ∀ entry ∈ environ.filter (Matches filter), envSegments entry ≠ [] := by
    intro entry hentry
    rw [List.mem_filter, decide_eq_true_eq] at hentry
    exact (husable entry hentry.1 hentry.2).1
  have hroot : (envRoot isSigned).Copyable := {
    toSound := sound_envRoot isSigned
    tagged := (intact_envRoot isSigned).tagged
    stringsSet := (intact_envRoot isSigned).stringsSet }
  revert hvariables hroot
  generalize environ.filter (Matches filter) = entries
  generalize envRoot isSigned = config
  intro hvariables hconfig
  induction entries generalizing config with
  | nil => exact hconfig
  | cons entry entries ih =>
      have hentry := hvariables entry List.mem_cons_self
      have hkey : ∀ k, (envSegments entry).getLast? = some k →
          (variableData strtod entry).key = some k :=
        fun k hk => (key_variableData hentry).trans hk
      have hoption := isOption_typedValue strtod ((envValue entry).getD [])
      refine ih _ (fun e he => hvariables e (List.mem_cons_of_mem entry he)) ?_
      exact {
        toSound := hconfig.toSound.addVariable hentry
        tagged := RoseTree.Everywhere.grow NodeData.key_bump NodeData.key_blank hkey
          (fun l keys k _ hl _ => hl) (fun k _ => NodeData.tagged_blank k)
          (RoseTree.everywhere_node.mpr ⟨hoption.fits, by simp⟩) hconfig.tagged
        stringsSet := RoseTree.Everywhere.grow NodeData.key_bump NodeData.key_blank hkey
          (fun l keys k _ hl _ => hl) (fun k _ => Config.stringSet_blank k)
          (RoseTree.everywhere_node.mpr ⟨hoption.stringSet, by simp⟩) hconfig.stringsSet }

/-- What the results about loads need of a backend: its functions settle, and the
nodes of a tree that it loads can all be copied. -/
structure BackendOps.Settled (ops : BackendOps) : Prop where
  supports : ∀ location, (ops.supports location).Settles
  openBackend : ∀ location, (ops.openBackend location).Settles
  load : ∀ handle isSigned, (ops.load handle isSigned).Settles
  close : ∀ handle, (ops.close handle).Settles
  copyable : ∀ handle isSigned config,
    (ops.load handle isSigned).Yields (.ok, some config) → config.Copyable

theorem samconfJsonOps_settled (world : World) : (samconfJsonOps world).Settled where
  supports location := Exec.settles_pure _
  openBackend location := Exec.settles_pure _
  load handle isSigned := by
    cases handle with
    | document root => exact samconfJsonBackendLoad_settles root isSigned
    | uri uri => exact Exec.settles_fault _
  close handle := Exec.settles_pure _
  copyable handle isSigned config h := by
    cases handle with
    | document root =>
        obtain ⟨-, rfl⟩ := samconfJsonBackendLoad_yields_iff.mp h
        exact Json.copyable_loaded root isSigned
    | uri uri => exact absurd h (Exec.faults_fault _).not_yields

theorem samconfEnvOps_settled (world : World) : (samconfEnvOps world).Settled where
  supports location := by
    apply (Exec.yields_allocFor (location.take 3)).bind_settles
    simp only
    split <;> exact Exec.settles_pure _
  openBackend location := by
    refine (samconfUriNew_settles world.regexec location).bind fun r _ => ?_
    rcases r with ⟨result, uri⟩
    cases uri with
    | none => exact Exec.settles_pure _
    | some uri =>
        refine (deref_settles _ _).bind fun scheme _ => ?_
        split <;> exact Exec.settles_pure _
  load handle isSigned := by
    cases handle with
    | document root => exact Exec.settles_fault _
    | uri uri => exact samconfEnvBackendLoad_settles world.strtod world.environ uri isSigned
  close handle := Exec.settles_pure _
  copyable handle isSigned config h := by
    cases handle with
    | document root => exact absurd h (Exec.faults_fault _).not_yields
    | uri uri => exact samconfEnvBackendLoad_copyable h

theorem samconfDummyOps_settled : samconfDummyOps.Settled where
  supports location := Exec.settles_pure _
  openBackend location := Exec.settles_pure _
  load handle isSigned := Exec.settles_pure _
  close handle := Exec.settles_pure _
  copyable handle isSigned config h := by
    have hsame := h.unique (Exec.yields_pure _)
    cases hsame

theorem samconfGetBackendOps_settled (world : World) (idx : BackendOption) :
    (samconfGetBackendOps world idx).Settled := by
  cases idx with
  | json =>
      rw [samconfGetBackendOps]
      split
      · exact samconfJsonOps_settled world
      · exact samconfDummyOps_settled
  | env =>
      rw [samconfGetBackendOps]
      split
      · exact samconfEnvOps_settled world
      · exact samconfDummyOps_settled
  | dummy => exact samconfDummyOps_settled

theorem lookupBackend_settles (world : World) (location : CString)
    (indexes : List BackendOption) (isSupported : Bool) :
    (lookupBackend world location indexes isSupported).Settles := by
  induction indexes generalizing isSupported with
  | nil => exact Exec.settles_pure _
  | cons idx rest ih =>
      rw [lookupBackend]
      refine ((samconfGetBackendOps_settled world idx).supports location).bind fun r _ => ?_
      simp only
      split
      · apply Exec.yields_alloc.bind_settles
        exact Exec.settles_pure _
      · exact ih _

/-- The backend that is found is one of the backends. -/
theorem lookupBackend_ensures (world : World) (location : CString)
    (indexes : List BackendOption) (isSupported : Bool) :
    (lookupBackend world location indexes isSupported).Ensures fun r =>
      ∀ ops ∈ r.2, ∃ idx, ops = samconfGetBackendOps world idx := by
  induction indexes generalizing isSupported with
  | nil => exact Exec.ensures_pure (by simp)
  | cons idx rest ih =>
      rw [lookupBackend]
      refine (Exec.ensures_true _).bind fun r _ => ?_
      simp only
      split
      · refine (Exec.ensures_true _).bind fun granted _ => ?_
        cases granted with
        | false => exact Exec.ensures_pure (by simp)
        | true => exact Exec.ensures_pure (by simp)
      · exact ih _

/-! ## One location -/

/-- Without failing allocations a backend that is opened faults or loads. -/
theorem loadWithBackend_settles {ops : BackendOps} (h : ops.Settled) (location : CString)
    (isSigned : Bool) : (loadWithBackend ops location isSigned).Settles := by
  rw [loadWithBackend]
  refine (h.openBackend location).bind fun opened _ => ?_
  rcases opened with ⟨status, handle⟩
  by_cases hopened : status = .ok
  · simp only [hopened, if_true]
    refine (deref_settles _ _).bind fun handle _ => ?_
    refine (h.load handle isSigned).bind fun loaded _ => ?_
    refine (h.close handle).bind fun secStatus _ => ?_
    rcases loaded with ⟨status, newConfig⟩
    cases newConfig with
    | none => exact Exec.settles_pure _
    | some newConfig =>
        by_cases hfailed : (if secStatus ≠ .ok then secStatus else status) ≠ .ok
        · simp only [if_pos hfailed]
          exact (Exec.settles_lift _).bind fun _ _ => Exec.settles_pure _
        · simp only [if_neg hfailed]
          exact Exec.settles_pure _
  · simp only [hopened, if_false]
    exact Exec.settles_pure _

/-- The nodes of the tree that it loads can all be copied. -/
theorem loadWithBackend_copyable {ops : BackendOps} (h : ops.Settled) {location : CString}
    {isSigned : Bool} {outcome : LoadOutcome}
    (hload : (loadWithBackend ops location isSigned).Yields outcome) :
    ∀ config ∈ outcome.config, config.Copyable := by
  rw [loadWithBackend, (h.openBackend location).yields_bind_iff] at hload
  obtain ⟨⟨status, handle⟩, -, hload⟩ := hload
  by_cases hopened : status = .ok
  · simp only [hopened, if_true] at hload
    rw [(deref_settles _ _).yields_bind_iff] at hload
    obtain ⟨handle, -, hload⟩ := hload
    rw [(h.load handle isSigned).yields_bind_iff] at hload
    obtain ⟨⟨status, newConfig⟩, hloaded, hload⟩ := hload
    rw [(h.close handle).yields_bind_iff] at hload
    obtain ⟨secStatus, -, hload⟩ := hload
    cases newConfig with
    | none =>
        obtain rfl := hload.unique (Exec.yields_pure _)
        simp
    | some newConfig =>
        by_cases hfailed : (if secStatus ≠ .ok then secStatus else status) ≠ .ok
        · simp only [if_pos hfailed] at hload
          rw [(Exec.settles_lift _).yields_bind_iff] at hload
          obtain ⟨_, -, hload⟩ := hload
          obtain rfl := hload.unique (Exec.yields_pure _)
          simp
        · simp only [if_neg hfailed] at hload
          obtain rfl := hload.unique (Exec.yields_pure _)
          have hok : status = .ok := by
            rw [not_not] at hfailed
            by_cases hclosed : secStatus = .ok
            · simpa [hclosed] using hfailed
            · simp [hclosed] at hfailed
          rw [hok] at hloaded
          rintro config ⟨⟩
          exact h.copyable handle isSigned newConfig hloaded
  · simp only [hopened, if_false] at hload
    obtain rfl := hload.unique (Exec.yields_pure _)
    simp

/-- A backend that is found for a location can be used. -/
theorem settled_of_lookup {world : World} {location : CString} {status : ConfigStatus}
    {ops : BackendOps} (h : (samconfLookupBackend world location).Yields (status, some ops)) :
    ops.Settled := by
  rw [samconfLookupBackend] at h
  obtain ⟨idx, rfl⟩ := Exec.ensures_iff.mp (lookupBackend_ensures world location _ _) _ _ _
    (Exec.yields_iff.mp h) ops rfl
  exact samconfGetBackendOps_settled world idx

/-- **A load** without failing allocations faults or returns. -/
theorem samconfLoad_settles (world : World) (location : CString) (enforceSignature : Bool) :
    (samconfLoad world location enforceSignature).Settles := by
  rw [samconfLoad]
  refine (samconfVerifySignature_settles _ _ _ _).bind fun status _ => ?_
  simp only
  split
  · refine (lookupBackend_settles world location _ _).bind fun found hfound => ?_
    rcases found with ⟨status, backend⟩
    cases backend with
    | none => exact Exec.settles_pure _
    | some ops =>
        simp only
        split
        · exact loadWithBackend_settles (settled_of_lookup hfound) location _
        · exact Exec.settles_pure _
  · exact Exec.settles_pure _

/-- The nodes of a loaded tree can all be copied. -/
theorem samconfLoad_copyable {world : World} {location : CString} {enforceSignature : Bool}
    {outcome : LoadOutcome}
    (h : (samconfLoad world location enforceSignature).Yields outcome) :
    ∀ config ∈ outcome.config, config.Copyable := by
  rw [samconfLoad, (samconfVerifySignature_settles _ _ _ _).yields_bind_iff] at h
  obtain ⟨status, -, h⟩ := h
  simp only at h
  split at h
  · rw [samconfLookupBackend, (lookupBackend_settles world location _ _).yields_bind_iff] at h
    obtain ⟨⟨status, backend⟩, hfound, h⟩ := h
    cases backend with
    | none =>
        obtain rfl := h.unique (Exec.yields_pure _)
        simp
    | some ops =>
        simp only at h
        split at h
        · exact loadWithBackend_copyable (settled_of_lookup hfound) h
        · obtain rfl := h.unique (Exec.yields_pure _)
          simp
  · obtain rfl := h.unique (Exec.yields_pure _)
    simp

end Samconf
