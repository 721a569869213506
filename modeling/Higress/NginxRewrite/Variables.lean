import Higress.NginxRewrite.Apply

/-!
Whether the variables of the plugin `nginx-rewrite-compatible` change only their own parameters,
cookies and headers, and the same ones in every order of its maps. The text of a variable is put
into the query and the cookies as it is; variables that there is no parameter for are put behind
the others as they come; and different names of variables can name one header.
-/

namespace Higress.NginxRewrite

open Lib ParamSyntax

/-! ### What the variables are for -/

/-- The parameters of the query that are set. -/
def args (vars : List Var) : List (GoString × GoString) :=
  vars.filterMap fun v => match targetOf v.name with
    | .arg name => some (name, v.value)
    | _ => none

/-- The cookies that are set. -/
def cookies (vars : List Var) : List (GoString × GoString) :=
  vars.filterMap fun v => match targetOf v.name with
    | .cookie name => some (name, v.value)
    | _ => none

/-- The headers that are set. -/
def httpHeaders (table : CaseTable) (vars : List Var) : List (GoString × GoString) :=
  vars.filterMap fun v => match targetOf v.name with
    | .http name => some (buildRequestHeaderName table name, v.value)
    | _ => none

/-- The headers that pass variables on, with none for those that are removed. -/
def upstreamHeaders (table : CaseTable) (vars : List Var) : List (GoString × Option GoString) :=
  vars.map fun v => (buildUpstreamHeaderName table v.name, if v.pass then some v.value else none)

section Targets

variable {table : CaseTable} {vars xs : List Var}

theorem eq_of_startsWith {name start : GoString} (h : Strings.startsWith name start = true) :
    name = start ++ name.drop start.length := by
  obtain ⟨t, rfl⟩ := List.isPrefixOf_iff_prefix.mp h
  simp

theorem eq_of_targetOf_arg {name key : GoString} (h : targetOf name = .arg key) :
    name = bytes "arg_" ++ key := by
  rw [targetOf] at h
  split_ifs at h with harg
  rw [← Target.arg.inj h]
  exact eq_of_startsWith harg

theorem eq_of_targetOf_cookie {name key : GoString} (h : targetOf name = .cookie key) :
    name = bytes "cookie_" ++ key := by
  rw [targetOf] at h
  split_ifs at h with harg hhttp hcookie
  rw [← Target.cookie.inj h]
  exact eq_of_startsWith hcookie

/-- Names that are different after what they have in common. -/
theorem nodup_filterMap_names {f : GoString → Option GoString} {start : GoString}
    (hf : ∀ name key, f name = some key → name = start ++ key) (h : (vars.map Var.name).Nodup) :
    ((vars.map Var.name).filterMap f).Nodup := by
  refine List.Nodup.filterMap (fun a b key ha hb => ?_) h
  rw [hf a key ha, hf b key hb]

theorem nodup_args (h : (vars.map Var.name).Nodup) : ((args vars).map Prod.fst).Nodup := by
  have heq : (args vars).map Prod.fst = (vars.map Var.name).filterMap fun name =>
      match targetOf name with
      | .arg key => some key
      | _ => none := by
    rw [args, List.map_filterMap, List.filterMap_map]
    congr 1
    ext v : 1
    simp only [Function.comp]
    cases targetOf v.name <;> rfl
  rw [heq]
  refine nodup_filterMap_names (fun name key hkey => eq_of_targetOf_arg ?_) h
  revert hkey
  cases targetOf name <;> simp

theorem nodup_cookies (h : (vars.map Var.name).Nodup) : ((cookies vars).map Prod.fst).Nodup := by
  have heq : (cookies vars).map Prod.fst = (vars.map Var.name).filterMap fun name =>
      match targetOf name with
      | .cookie key => some key
      | _ => none := by
    rw [cookies, List.map_filterMap, List.filterMap_map]
    congr 1
    ext v : 1
    simp only [Function.comp]
    cases targetOf v.name <;> rfl
  rw [heq]
  refine nodup_filterMap_names (fun name key hkey => eq_of_targetOf_cookie ?_) h
  revert hkey
  cases targetOf name <;> simp

/-- No header that passes a variable on has a name that is as short as this. -/
theorem upstream_valuesFor_eq_nil {name : GoString} (h : name.length < 22) :
    valuesFor name (upstreamHeaders table vars) = [] := by
  rw [List.eq_nil_iff_forall_not_mem]
  intro o ho
  rw [mem_valuesFor, upstreamHeaders, List.mem_map] at ho
  obtain ⟨v, -, hv⟩ := ho
  have hname := congrArg Prod.fst hv
  have hlen : headerStart.length = 22 := by decide
  have : (buildUpstreamHeaderName table v.name).length = name.length := congrArg List.length hname
  rw [buildUpstreamHeaderName, List.length_append, hlen] at this
  omega

/-- A variable that comes last in some order. -/
theorem exists_perm_append {v : Var} (h : v ∈ vars) : ∃ rest, (rest ++ [v]).Perm vars :=
  ⟨vars.erase v, (List.perm_append_singleton v _).trans (List.perm_cons_erase h).symm⟩

end Targets

/-! ### What is written if no call fails -/

/-- The host does what it is asked. -/
structure Host.Works (host : Host) : Prop where
  setProperty : ∀ name value, host.setProperty name value = true
  replaceHttpRequestHeader : ∀ name value, host.replaceHttpRequestHeader name value = true

/-- The headers after the variables and the headers that they set. -/
def staged (table : CaseTable) (vars : List Var) (headers : Headers) : Headers := fun name =>
  (lastFor name (httpHeaders table vars)).or
    ((lastFor name (upstreamHeaders table vars)).getD (headers name))

/-- The cookies put into the headers. -/
def withCookies (set : List (GoString × GoString)) (headers : Headers) : Headers :=
  if set = [] then headers
  else Function.update headers (bytes "cookie")
    (some (cookieSyntax.setParams set ((headers (bytes "cookie")).getD [])))

/-- The result for an order of the variables and one of the cookies. -/
def finished (table : CaseTable) (r : Request) (s : Progress) (vars : List Var)
    (set : List (GoString × GoString)) : Rewritten :=
  let query := querySyntax.setParams (args vars) s.query
  let headers := withCookies set (staged table vars r.headers)
  let finalPath := buildPath s.path query
  ⟨s.path, query, if finalPath ≠ r.path then
    Function.update headers (bytes ":path") (some finalPath) else headers⟩

section Writes

variable {host : Host} (hworks : host.Works) {table : CaseTable}

include hworks

theorem replaceHeader_eq (failure : Failure) (headers : Headers) (name value : GoString) :
    replaceHeader host failure headers name value =
      .ok (Function.update headers name (some value)) := by
  rw [replaceHeader, hworks.replaceHttpRequestHeader, if_pos rfl]

theorem writeUpstream_eq (headers : Headers) (v : Var) :
    writeUpstream host table headers v = .ok (Function.update headers
      (buildUpstreamHeaderName table v.name) (if v.pass then some v.value else none)) := by
  rw [writeUpstream]
  cases v.pass with
  | false => rfl
  | true => exact replaceHeader_eq hworks _ _ _ _

theorem writeVar_eq (w : Written) (v : Var) :
    writeVar host table w v = .ok {
      query := querySyntax.setParams (args [v]) w.query
      requestHeaders := (httpHeaders table [v]).foldl putEntry w.requestHeaders
      requestCookies := (cookies [v]).foldl putEntry w.requestCookies
      headers := (upstreamHeaders table [v]).foldl (fun m kv => Function.update m kv.1 kv.2)
        w.headers } := by
  have htarget : writeTarget host table w v = .ok {
      query := querySyntax.setParams (args [v]) w.query
      requestHeaders := (httpHeaders table [v]).foldl putEntry w.requestHeaders
      requestCookies := (cookies [v]).foldl putEntry w.requestCookies
      headers := w.headers } := by
    rw [writeTarget]
    cases h : targetOf v.name with
    | arg name => simp [args, httpHeaders, cookies, h, setParams, setQueryParam]
    | http name => simp [args, httpHeaders, cookies, h, setParams]
    | cookie name => simp [args, httpHeaders, cookies, h, setParams]
    | property => simp [args, httpHeaders, cookies, h, setParams, hworks.setProperty]
  rw [writeVar, htarget]
  change (writeUpstream host table w.headers v >>= _) = _
  rw [writeUpstream_eq hworks]
  rfl

theorem writeVars_eq (vars : List Var) (w : Written) :
    vars.foldlM (writeVar host table) w = .ok {
      query := querySyntax.setParams (args vars) w.query
      requestHeaders := (httpHeaders table vars).foldl putEntry w.requestHeaders
      requestCookies := (cookies vars).foldl putEntry w.requestCookies
      headers := (upstreamHeaders table vars).foldl (fun m kv => Function.update m kv.1 kv.2)
        w.headers } := by
  induction vars generalizing w with
  | nil => rfl
  | cons v vars ih =>
      have happend {α β : Type} (f : α → Option β) (a : α) (l : List α) :
          (a :: l).filterMap f = [a].filterMap f ++ l.filterMap f := by
        rw [← List.filterMap_append]
        rfl
      rw [List.foldlM_cons, writeVar_eq hworks]
      change List.foldlM _ _ vars = _
      rw [ih]
      simp only [args, httpHeaders, cookies]
      rw [happend _ v vars, happend _ v vars, happend _ v vars, setParams, setParams, setParams,
        List.foldl_append, List.foldl_append, List.foldl_append]
      rfl

theorem writeHeaders_eq (entries : List (GoString × GoString)) (headers : Headers) :
    entries.foldlM (writeHeader host) headers =
      .ok (entries.foldl (fun m kv => Function.update m kv.1 (some kv.2)) headers) := by
  induction entries generalizing headers with
  | nil => rfl
  | cons kv entries ih =>
      rw [List.foldlM_cons, writeHeader, replaceHeader_eq hworks]
      exact ih _

theorem writeCookies_eq (set : List (GoString × GoString)) (headers : Headers) :
    writeCookies host headers set = .ok (withCookies set headers) := by
  rw [writeCookies, withCookies]
  split_ifs
  · rfl
  · exact replaceHeader_eq hworks _ _ _ _

theorem writePath_eq (originalPath finalPath : GoString) (headers : Headers) :
    writePath host originalPath finalPath headers = .ok (if finalPath ≠ originalPath then
      Function.update headers (bytes ":path") (some finalPath) else headers) := by
  rw [writePath]
  split_ifs
  · exact replaceHeader_eq hworks _ _ _ _
  · rfl

/-- The results are those of the orders of the variables and of the cookies. -/
theorem writes_iff {r : Request} {s : Progress} (hnodup : (s.vars.map Var.name).Nodup)
    (result : Rewritten) :
    Writes host table r s result ↔ ∃ vars set, vars.Perm s.vars ∧ set.Perm (cookies s.vars) ∧
      result = finished table r s vars set := by
  have hstaged {vars : List Var} {entries : List (GoString × GoString)}
      (hentries : entries.Perm ((httpHeaders table vars).foldl putEntry [])) :
      entries.foldl (fun (m : Headers) kv => Function.update m kv.1 (some kv.2))
        ((upstreamHeaders table vars).foldl (fun (m : Headers) kv => Function.update m kv.1 kv.2)
          r.headers) =
      staged table vars r.headers := by
    ext1 name
    rw [foldl_update_entries hentries, foldl_update]
    rfl
  have hcookies {vars : List Var} (hvars : vars.Perm s.vars) :
      ((cookies vars).foldl putEntry []).Perm (cookies s.vars) := by
    rw [foldl_putEntry_of_nodup (nodup_cookies ((hvars.map _).nodup_iff.mpr hnodup))]
    exact hvars.filterMap _
  constructor
  · rintro ⟨vars, w, entries, set, h₁, h₂, headers, hvars, hw, hentries, hh₁, hset, hh₂, hpath,
      rfl⟩
    rw [writeVars_eq hworks] at hw
    cases hw
    rw [writeHeaders_eq hworks, hstaged hentries] at hh₁
    cases hh₁
    rw [writeCookies_eq hworks] at hh₂
    cases hh₂
    rw [writePath_eq hworks] at hpath
    cases hpath
    exact ⟨vars, set, hvars, hset.trans (hcookies hvars), rfl⟩
  · rintro ⟨vars, set, hvars, hset, rfl⟩
    refine ⟨vars, _, _, set, _, _, _, hvars, writeVars_eq hworks vars _, List.Perm.refl _,
      writeHeaders_eq hworks _ _, hset.trans (hcookies hvars).symm, writeCookies_eq hworks _ _,
      writePath_eq hworks _ _ _, ?_⟩
    rw [hstaged (List.Perm.refl _)]
    rfl

end Writes

/-! ### What the variables should change -/

/-- The values of the variables for a header. -/
def httpValues (table : CaseTable) (vars : List Var) (name : GoString) : List GoString :=
  valuesFor name (httpHeaders table vars)

/-- The cookies that others can be put into: those of the request, or of the variables for the
header. -/
def cookieBases (table : CaseTable) (r : Request) (vars : List Var) : List GoString :=
  let values := httpValues table vars (bytes "cookie")
  if values = [] then [(r.headers (bytes "cookie")).getD []] else values

/-- The result has the path and the query of the rules with the variables in it, and the cookies
with the variables in them. -/
structure OnlyOwn (table : CaseTable) (r : Request) (s : Progress) (result : Rewritten) : Prop where
  path : Request.path ⟨result.headers, r.ctxPath⟩ = buildPath s.path result.query
  query : Updated (named (args s.vars)) (querySyntax.parts s.query)
    (querySyntax.parts result.query)
  cookie : ∃ base ∈ cookieBases table r s.vars, Updated (named (cookies s.vars))
    (cookieSyntax.parts base) (cookieSyntax.parts ((result.headers (bytes "cookie")).getD []))

/-- What is written to a header is the same in all orders. -/
structure Determined (table : CaseTable) (vars : List Var) (name : GoString) : Prop where
  http : ∀ v ∈ httpValues table vars name, ∀ v' ∈ httpValues table vars name, v = v'
  upstream : httpValues table vars name = [] →
    ∀ o ∈ valuesFor name (upstreamHeaders table vars),
      ∀ o' ∈ valuesFor name (upstreamHeaders table vars), o = o'

/-- The variables do not come in each other's way. Names and values of parameters and cookies can
stand in their texts, with at most one that there was none of, and variables for one header have
one value. -/
structure Separate (table : CaseTable) (r : Request) (s : Progress) : Prop where
  argTexts : querySyntax.Settable (args s.vars)
  newArg : OneNew (named (args s.vars)) (querySyntax.parts s.query)
  cookieTexts : cookieSyntax.Settable (cookies s.vars)
  newCookie : ∀ base ∈ cookieBases table r s.vars,
    OneNew (named (cookies s.vars)) (cookieSyntax.parts base)
  sameCookies : ∀ base ∈ cookieBases table r s.vars, ∀ base' ∈ cookieBases table r s.vars,
    cookieSyntax.setParams (cookies s.vars) base =
      cookieSyntax.setParams (cookies s.vars) base'
  path : buildPath s.path (querySyntax.setParams (args s.vars) s.query) = r.path →
    ∀ value ∈ httpValues table s.vars (bytes ":path"),
      (if value = [] then r.ctxPath else value) = r.path ∧
        ∀ value' ∈ httpValues table s.vars (bytes ":path"), value = value'
  headers : ∀ name, name ≠ bytes "cookie" → name ≠ bytes ":path" → Determined table s.vars name

section Staged

variable {table : CaseTable} {vars xs : List Var} {headers : Headers} {name : GoString}

theorem httpHeaders_perm (h : xs.Perm vars) :
    (httpHeaders table xs).Perm (httpHeaders table vars) := h.filterMap _

theorem args_perm (h : xs.Perm vars) : (args xs).Perm (args vars) := h.filterMap _

theorem upstreamHeaders_perm (h : xs.Perm vars) :
    (upstreamHeaders table xs).Perm (upstreamHeaders table vars) := h.map _

theorem staged_short (h : name.length < 22) :
    staged table vars headers name = (lastFor name (httpHeaders table vars)).or (headers name) := by
  rw [staged, lastFor_eq_none_iff.mpr (upstream_valuesFor_eq_nil h)]
  rfl

theorem Determined.staged_perm (h : Determined table vars name) (hperm : xs.Perm vars) :
    staged table xs headers name = staged table vars headers name := by
  rw [staged, staged, lastFor_perm (httpHeaders_perm hperm) h.http]
  cases hlast : lastFor name (httpHeaders table vars) with
  | some v => rfl
  | none =>
      rw [lastFor_perm (upstreamHeaders_perm hperm) (h.upstream (lastFor_eq_none_iff.mp hlast))]

/-- Each variable for a header is last in some order. -/
theorem exists_lastFor_http {value : GoString} (h : value ∈ httpValues table vars name) :
    ∃ xs, xs.Perm vars ∧ lastFor name (httpHeaders table xs) = some value := by
  rw [httpValues, mem_valuesFor, httpHeaders, List.mem_filterMap] at h
  obtain ⟨v, hv, hhttp⟩ := h
  obtain ⟨rest, hperm⟩ := exists_perm_append hv
  refine ⟨rest ++ [v], hperm, ?_⟩
  have happend : httpHeaders table (rest ++ [v]) = httpHeaders table rest ++ [(name, value)] := by
    rw [httpHeaders, List.filterMap_append, List.filterMap_cons, hhttp]
    rfl
  rw [happend, lastFor_append, if_pos rfl]

theorem exists_lastFor_upstream {o : Option GoString}
    (h : o ∈ valuesFor name (upstreamHeaders table vars)) :
    ∃ xs, xs.Perm vars ∧ lastFor name (upstreamHeaders table xs) = some o := by
  rw [mem_valuesFor, upstreamHeaders, List.mem_map] at h
  obtain ⟨v, hv, hup⟩ := h
  obtain ⟨rest, hperm⟩ := exists_perm_append hv
  refine ⟨rest ++ [v], hperm, ?_⟩
  have happend : upstreamHeaders table (rest ++ [v]) = upstreamHeaders table rest ++ [(name, o)] := by
    rw [upstreamHeaders, List.map_append, List.map_singleton, hup]
    rfl
  rw [happend, lastFor_append, if_pos rfl]

/-- Each parameter is set last in some order. -/
theorem exists_args_append {kv : GoString × GoString} (h : kv ∈ args vars) :
    ∃ xs rest, xs.Perm vars ∧ args xs = rest ++ [kv] := by
  rw [args, List.mem_filterMap] at h
  obtain ⟨v, hv, harg⟩ := h
  obtain ⟨rest, hperm⟩ := exists_perm_append hv
  refine ⟨rest ++ [v], args rest, hperm, ?_⟩
  rw [args, List.filterMap_append, List.filterMap_cons, harg]
  rfl

theorem staged_of_lastFor {value : GoString}
    (h : lastFor name (httpHeaders table xs) = some value) :
    staged table xs headers name = some value := by
  rw [staged, h]
  rfl

/-- What an order leaves of the header, the cookies are put into. -/
theorem staged_cookie_mem {r : Request} (h : xs.Perm vars) :
    (staged table xs r.headers (bytes "cookie")).getD [] ∈ cookieBases table r vars := by
  have hperm : (httpValues table xs (bytes "cookie")).Perm
      (httpValues table vars (bytes "cookie")) := valuesFor_perm (httpHeaders_perm h)
  rw [staged_short (by decide), cookieBases]
  cases hlast : lastFor (bytes "cookie") (httpHeaders table xs) with
  | none =>
      have hnil : httpValues table vars (bytes "cookie") = [] := by
        rw [httpValues, lastFor_eq_none_iff.mp hlast] at hperm
        exact hperm.nil_eq.symm
      simp [hnil]
  | some v =>
      have hv : v ∈ httpValues table vars (bytes "cookie") := hperm.mem_iff.mp (mem_of_lastFor hlast)
      rw [if_neg (List.ne_nil_of_mem hv)]
      exact hv

theorem exists_staged_cookie {r : Request} {base : GoString}
    (h : base ∈ cookieBases table r vars) :
    ∃ xs, xs.Perm vars ∧ (staged table xs r.headers (bytes "cookie")).getD [] = base := by
  rw [cookieBases] at h
  split_ifs at h with hnone
  · refine ⟨vars, List.Perm.refl _, ?_⟩
    rw [staged_short (by decide), lastFor_eq_none_iff.mpr hnone, List.mem_singleton.mp h]
    rfl
  · obtain ⟨xs, hperm, hlast⟩ := exists_lastFor_http h
    exact ⟨xs, hperm, by rw [staged_of_lastFor hlast]; rfl⟩

end Staged

/-! ### The result of an order -/

section Finished

variable {table : CaseTable} {r : Request} {s : Progress} {vars : List Var}
  {set : List (GoString × GoString)} {name : GoString}

theorem withCookies_of_ne {headers : Headers} (h : name ≠ bytes "cookie") :
    withCookies set headers name = headers name := by
  rw [withCookies]
  split_ifs
  · rfl
  · exact Function.update_of_ne h _ _

theorem withCookies_cookie (headers : Headers) :
    (withCookies set headers (bytes "cookie")).getD [] =
      cookieSyntax.setParams set ((headers (bytes "cookie")).getD []) := by
  rw [withCookies]
  split_ifs with h
  · rw [h]
    rfl
  · rw [Function.update_self]
    rfl

theorem finished_headers (hcookie : name ≠ bytes "cookie") (hpath : name ≠ bytes ":path") :
    (finished table r s vars set).headers name = staged table vars r.headers name := by
  rw [finished]
  dsimp only
  split_ifs
  · rw [Function.update_of_ne hpath, withCookies_of_ne hcookie]
  · exact withCookies_of_ne hcookie

theorem finished_cookieHeader : (finished table r s vars set).headers (bytes "cookie") =
    withCookies set (staged table vars r.headers) (bytes "cookie") := by
  rw [finished]
  dsimp only
  split_ifs
  · exact Function.update_of_ne (by decide) _ _
  · rfl

theorem finished_pathHeader :
    (finished table r s vars set).headers (bytes ":path") =
      if buildPath s.path (querySyntax.setParams (args vars) s.query) ≠ r.path then
        some (buildPath s.path (querySyntax.setParams (args vars) s.query))
      else staged table vars r.headers (bytes ":path") := by
  rw [finished]
  dsimp only
  split_ifs
  · exact Function.update_self _ _ _
  · exact withCookies_of_ne (by decide)

end Finished

/-! ### When the variables change only what is their own -/

section Main

variable {table : CaseTable} {r : Request} {s : Progress} {vars : List Var}
  {set : List (GoString × GoString)}

/-- For variables that do not come in each other's way all orders have one result. -/
theorem Separate.finished_eq (h : Separate table r s) (hnodup : (s.vars.map Var.name).Nodup)
    (hvars : vars.Perm s.vars) (hset : set.Perm (cookies s.vars)) :
    finished table r s vars set = finished table r s s.vars (cookies s.vars) := by
  have hquery : querySyntax.setParams (args vars) s.query =
      querySyntax.setParams (args s.vars) s.query :=
    setParams_perm (nodup_args hnodup) h.argTexts h.newArg (args_perm hvars)
  have hheaders : (finished table r s vars set).headers =
      (finished table r s s.vars (cookies s.vars)).headers := by
    ext1 name
    by_cases hcookie : name = bytes "cookie"
    · subst hcookie
      rw [finished_cookieHeader, finished_cookieHeader, withCookies, withCookies]
      by_cases hnone : cookies s.vars = []
      · rw [if_pos hnone, if_pos (by simpa [hnone] using hset), staged_short (by decide),
          staged_short (by decide), lastFor_perm (httpHeaders_perm hvars)]
        intro v hv v' hv'
        have hbases : cookieBases table r s.vars = httpValues table s.vars (bytes "cookie") :=
          if_neg (List.ne_nil_of_mem hv)
        have hsame := h.sameCookies v (hbases ▸ hv) v' (hbases ▸ hv')
        rw [hnone] at hsame
        exact hsame
      · have hbase := @staged_cookie_mem table _ _ r hvars
        have hbase' := @staged_cookie_mem table _ _ r (List.Perm.refl s.vars)
        rw [if_neg hnone, if_neg fun hnil => hnone (by simpa [hnil] using hset.symm),
          Function.update_self, Function.update_self,
          setParams_perm (nodup_cookies hnodup) h.cookieTexts (h.newCookie _ hbase) hset,
          h.sameCookies _ hbase _ hbase']
    · by_cases hpath : name = bytes ":path"
      · subst hpath
        rw [finished_pathHeader, finished_pathHeader, hquery]
        split_ifs with hchanged
        · rfl
        · rw [staged_short (by decide), staged_short (by decide),
            lastFor_perm (httpHeaders_perm hvars)]
          intro v hv v' hv'
          exact (h.path (not_not.mp hchanged) v hv).2 v' hv'
      · rw [finished_headers hcookie hpath, finished_headers hcookie hpath]
        exact (h.headers name hcookie hpath).staged_perm hvars
  have heta : finished table r s vars set =
      ⟨s.path, querySyntax.setParams (args vars) s.query, (finished table r s vars set).headers⟩ := rfl
  rw [heta, hquery, hheaders]
  rfl

theorem buildPath_ne_nil {path : GoString} (h : path ≠ []) (query : GoString) :
    buildPath path query ≠ [] := by
  rw [buildPath]
  split_ifs
  · exact h
  · simp

theorem Separate.onlyOwn (h : Separate table r s) (hnodup : (s.vars.map Var.name).Nodup)
    (hne : s.path ≠ []) :
    OnlyOwn table r s (finished table r s s.vars (cookies s.vars)) where
  path := by
    change Request.path _ = buildPath s.path (querySyntax.setParams (args s.vars) s.query)
    rw [Request.path]
    dsimp only
    rw [finished_pathHeader]
    split_ifs with hchanged
    · exact if_neg (buildPath_ne_nil hne _)
    · -- the header was left to the variables, which have to agree with it
      have hfinal := not_not.mp hchanged
      rw [staged_short (by decide), hfinal]
      cases hlast : lastFor (bytes ":path") (httpHeaders table s.vars) with
      | none => rfl
      | some v => exact (h.path hfinal v (mem_of_lastFor hlast)).1
  query := setParams_updated (nodup_args hnodup) h.argTexts s.query
  cookie := by
    refine ⟨_, staged_cookie_mem (List.Perm.refl _), ?_⟩
    rw [finished_cookieHeader, withCookies_cookie]
    exact setParams_updated (nodup_cookies hnodup) h.cookieTexts _

/-- Conversely, variables for which all orders have one result do not come in each other's way. -/
theorem separate_of_finished (hnodup : (s.vars.map Var.name).Nodup)
    (hown : OnlyOwn table r s (finished table r s s.vars (cookies s.vars)))
    (hsame : ∀ vars set, vars.Perm s.vars → set.Perm (cookies s.vars) →
      finished table r s vars set = finished table r s s.vars (cookies s.vars)) :
    Separate table r s := by
  have hargs : querySyntax.Settable (args s.vars) := settable_of_updated hown.query
  have hcookies : cookieSyntax.Settable (cookies s.vars) := by
    obtain ⟨base, -, hupdated⟩ := hown.cookie
    exact settable_of_updated hupdated
  have hquery (vars : List Var) (hvars : vars.Perm s.vars) :
      querySyntax.setParams (args vars) s.query = querySyntax.setParams (args s.vars) s.query :=
    congrArg Rewritten.query (hsame vars _ hvars (List.Perm.refl _))
  have hheader (vars : List Var) (hvars : vars.Perm s.vars) (name : GoString) :
      (finished table r s vars (cookies s.vars)).headers name =
        (finished table r s s.vars (cookies s.vars)).headers name :=
    congrArg (Rewritten.headers · name) (hsame vars _ hvars (List.Perm.refl _))
  -- what the cookies are put into does not matter, nor their order
  have hcookie {base : GoString} (hbase : base ∈ cookieBases table r s.vars)
      {set : List (GoString × GoString)} (hset : set.Perm (cookies s.vars)) :
      cookieSyntax.setParams set base =
        ((finished table r s s.vars (cookies s.vars)).headers (bytes "cookie")).getD [] := by
    obtain ⟨vars, hvars, rfl⟩ := exists_staged_cookie hbase
    rw [← hsame vars set hvars hset, finished_cookieHeader, withCookies_cookie]
  refine ⟨hargs, ?_, hcookies, ?_, ?_, ?_, ?_⟩
  · apply oneNew_of_setParams (nodup_args hnodup) hargs
    intro kv hkv
    obtain ⟨vars, rest, hvars, heq⟩ := exists_args_append (List.mem_filter.mp hkv).1
    refine ⟨rest, ?_, ?_⟩
    · rw [← heq]
      exact args_perm hvars
    · rw [← heq, hquery vars hvars]
  · intro base hbase
    apply oneNew_of_setParams (nodup_cookies hnodup) hcookies
    intro kv hkv
    have hperm : ((cookies s.vars).erase kv ++ [kv]).Perm (cookies s.vars) :=
      (List.perm_append_singleton kv _).trans
        (List.perm_cons_erase (List.mem_filter.mp hkv).1).symm
    exact ⟨_, hperm, hcookie hbase hperm⟩
  · intro base hbase base' hbase'
    rw [hcookie hbase (List.Perm.refl _), hcookie hbase' (List.Perm.refl _)]
  · intro hfinal value hvalue
    have hheaderPath {v : GoString} (hv : v ∈ httpValues table s.vars (bytes ":path")) :
        (finished table r s s.vars (cookies s.vars)).headers (bytes ":path") = some v := by
      obtain ⟨vars, hvars, hlast⟩ := exists_lastFor_http hv
      rw [← hheader vars hvars, finished_pathHeader, hquery vars hvars, if_neg (not_not.mpr hfinal),
        staged_of_lastFor hlast]
    refine ⟨?_, fun value' hvalue' => ?_⟩
    · have hread := hown.path
      change Request.path _ = buildPath s.path (querySyntax.setParams (args s.vars) s.query) at hread
      rw [Request.path] at hread
      dsimp only at hread
      rw [hheaderPath hvalue, hfinal] at hread
      exact hread
    · exact Option.some.inj ((hheaderPath hvalue).symm.trans (hheaderPath hvalue'))
  · intro name hname hname'
    have hstaged (vars : List Var) (hvars : vars.Perm s.vars) :
        staged table vars r.headers name = staged table s.vars r.headers name := by
      rw [← finished_headers hname hname', ← finished_headers hname hname']
      exact hheader vars hvars name
    refine ⟨fun v hv v' hv' => ?_, fun hnone o ho o' ho' => ?_⟩
    · obtain ⟨xs, hxs, hlast⟩ := exists_lastFor_http hv
      obtain ⟨ys, hys, hlast'⟩ := exists_lastFor_http hv'
      have heq := (hstaged xs hxs).trans (hstaged ys hys).symm
      rw [staged_of_lastFor hlast, staged_of_lastFor hlast'] at heq
      exact Option.some.inj heq
    · have hup {vars : List Var} {o : Option GoString} (hvars : vars.Perm s.vars)
          (hlast : lastFor name (upstreamHeaders table vars) = some o) :
          staged table vars r.headers name = o := by
        have hnil : lastFor name (httpHeaders table vars) = none := by
          have hperm : (httpValues table vars name).Perm (httpValues table s.vars name) :=
            valuesFor_perm (httpHeaders_perm hvars)
          rw [hnone] at hperm
          exact lastFor_eq_none_iff.mpr hperm.eq_nil
        rw [staged, hnil, hlast]
        rfl
      obtain ⟨xs, hxs, hlast⟩ := exists_lastFor_upstream ho
      obtain ⟨ys, hys, hlast'⟩ := exists_lastFor_upstream ho'
      rw [← hup hxs hlast, ← hup hys hlast', hstaged xs hxs, hstaged ys hys]

/-- All results are as they should be, and there is one of them. -/
theorem writes_onlyOwn_iff {host : Host} (hworks : host.Works)
    (hnodup : (s.vars.map Var.name).Nodup) (hne : s.path ≠ []) :
    ((∀ result, Writes host table r s result → OnlyOwn table r s result) ∧
        ∀ a b, Writes host table r s a → Writes host table r s b → a = b) ↔
      Separate table r s := by
  have hwrites (vars : List Var) (set : List (GoString × GoString)) (hvars : vars.Perm s.vars)
      (hset : set.Perm (cookies s.vars)) : Writes host table r s (finished table r s vars set) :=
    (writes_iff hworks hnodup _).mpr ⟨vars, set, hvars, hset, rfl⟩
  have hfirst := hwrites s.vars (cookies s.vars) (List.Perm.refl _) (List.Perm.refl _)
  constructor
  · rintro ⟨hown, hsame⟩
    exact separate_of_finished hnodup (hown _ hfirst)
      fun vars set hvars hset => hsame _ _ (hwrites vars set hvars hset) hfirst
  · intro h
    have hresult (result : Rewritten) (hresult : Writes host table r s result) :
        result = finished table r s s.vars (cookies s.vars) := by
      obtain ⟨vars, set, hvars, hset, rfl⟩ := (writes_iff hworks hnodup _).mp hresult
      exact h.finished_eq hnodup hvars hset
    refine ⟨fun result hw => ?_, fun a b ha hb => (hresult a ha).trans (hresult b hb).symm⟩
    rw [hresult result hw]
    exact h.onlyOwn hnodup hne

end Main

/-! ### The rules -/

/-- Each variable has one value, and a path that was rewritten is not empty. -/
structure Progress.Ok (s : Progress) : Prop where
  vars : (s.vars.map Var.name).Nodup
  path : s.changed = true → s.path ≠ []

theorem nodup_putVar {vars : List Var} (h : (vars.map Var.name).Nodup) (v : Var) :
    ((putVar vars v).map Var.name).Nodup := by
  rw [putVar, List.map_append, List.nodup_append]
  refine ⟨h.sublist (List.filter_sublist.map _), by simp, ?_⟩
  intro a ha b hb
  obtain ⟨v', hv', rfl⟩ := List.mem_map.mp ha
  rw [List.map_singleton, List.mem_singleton] at hb
  rw [hb]
  simpa using (List.mem_filter.mp hv').2

theorem nodup_vars (rule : Rule) (currentPath : GoString) (found : List ℤ) {vars : List Var}
    (h : (vars.map Var.name).Nodup) : ((rule.vars currentPath found vars).map Var.name).Nodup := by
  rw [Rule.vars]
  induction rule.setVars generalizing vars with
  | nil => exact h
  | cons setVar setVars ih => exact ih (nodup_putVar h _)

theorem applyRules_ok {rules : List Rule} {i : ℕ} {s t : Progress} (hs : s.Ok)
    (h : applyRules i rules s = .ok t) : t.Ok := by
  induction rules generalizing i s with
  | nil =>
      cases h
      exact hs
  | cons rule rules ih =>
      rw [applyRules] at h
      split at h
      · exact ih hs h
      · rename_i found _
        dsimp only at h
        split_ifs at h with hempty hmode
        · cases h
          exact ⟨nodup_vars rule _ found hs.vars, fun _ => hempty⟩
        · exact ih ⟨nodup_vars rule _ found hs.vars, fun _ => hempty⟩ h

theorem rewrite_ok {rules : List Rule} {r : Request} {s : Progress}
    (h : rewrite rules r = .ok s) : s.Ok := by
  rw [rewrite] at h
  split_ifs at h
  exact applyRules_ok ⟨by simp, by simp⟩ h

/-- If the host does what it is asked, the results of `Apply` change only what is the variables'
own, and do not depend on the order of the maps, if and only if the variables that the rules
capture do not come in each other's way. -/
theorem apply_onlyOwn_iff {host : Host} (hworks : host.Works) (table : CaseTable)
    (rules : List Rule) (r : Request) :
    ((∀ s result, rewrite rules r = .ok s → Applies host table rules r result →
          OnlyOwn table r s result) ∧
        ∀ a b, Applies host table rules r a → Applies host table rules r b → a = b) ↔
      ∀ s, rewrite rules r = .ok s → s.changed = true → Separate table r s := by
  constructor
  · rintro ⟨hown, hsame⟩ s hs hchanged
    have hok := rewrite_ok hs
    refine (writes_onlyOwn_iff hworks hok.vars (hok.path hchanged)).mp ⟨?_, ?_⟩
    · exact fun result hw => hown s result hs ⟨s, hs, hchanged, hw⟩
    · exact fun a b ha hb => hsame a b ⟨s, hs, hchanged, ha⟩ ⟨s, hs, hchanged, hb⟩
  · intro h
    have hstate {s t : Progress} (hs : rewrite rules r = .ok s) (ht : rewrite rules r = .ok t) :
        s = t := Except.ok.inj (hs.symm.trans ht)
    have hiff (s : Progress) (hs : rewrite rules r = .ok s) (hchanged : s.changed = true) :=
      (@writes_onlyOwn_iff table r s host hworks (rewrite_ok hs).vars
        ((rewrite_ok hs).path hchanged)).mpr (h s hs hchanged)
    refine ⟨?_, ?_⟩
    · rintro s result hs ⟨t, ht, hchanged, hw⟩
      obtain rfl := hstate hs ht
      exact (hiff s hs hchanged).1 result hw
    · rintro a b ⟨s, hs, hchanged, ha⟩ ⟨t, ht, _, hb⟩
      obtain rfl := hstate hs ht
      exact (hiff s hs hchanged).2 a b ha hb

/-! A rule that puts the rest of the path into the parameter `source`. -/

namespace Sample

/-- The expression `^/api/(.*)$`, with templates without references. -/
def afterApi : Regexp where
  findStringSubmatchIndex path :=
    if Strings.startsWith path (bytes "/api/") then some [0, path.length, 5, path.length] else none
  replaceAllString path replacement :=
    if Strings.startsWith path (bytes "/api/") then replacement else path
  expandString template _ _ := template

def rule : Rule where
  compiled := afterApi
  replacement := bytes "/internal"
  setVars := [⟨bytes "arg_source", 1⟩]

def request (path : String) : Request :=
  ⟨fun name => if name = bytes ":path" then some (bytes path) else none, bytes path⟩

def host : Host := ⟨fun _ _ => true, fun _ _ => true⟩

theorem host_works : host.Works := ⟨fun _ _ => rfl, fun _ _ => rfl⟩

def captured (value : String) : Progress :=
  ⟨bytes "/internal", [], [⟨bytes "arg_source", bytes value, false⟩], true⟩

theorem rewrite_separator : rewrite [rule] (request "/api/a&b=c") = .ok (captured "a&b=c") := rfl

theorem rewrite_plain : rewrite [rule] (request "/api/a") = .ok (captured "a") := rfl

theorem args_captured (value : String) :
    named (args (captured value).vars) = [(bytes "source", bytes value)] := rfl

theorem cookies_captured (value : String) : named (cookies (captured value).vars) = [] := rfl

theorem httpHeaders_captured (table : CaseTable) (value : String) :
    httpHeaders table (captured value).vars = [] := rfl

end Sample

open Sample in
/-- A value with a separator in it becomes two parameters. -/
theorem apply_adds_parameter :
    ∃ result, Applies host plainCaseTable [rule] (request "/api/a&b=c") result ∧
      rewrite [rule] (request "/api/a&b=c") = .ok (captured "a&b=c") ∧
      querySyntax.parts result.query = [bytes "source=a", bytes "b=c"] ∧
      ¬OnlyOwn plainCaseTable (request "/api/a&b=c") (captured "a&b=c") result := by
  have hwrites := (@writes_iff host host_works plainCaseTable (request "/api/a&b=c")
    (captured "a&b=c") (by decide) _).mpr ⟨_, _, List.Perm.refl _, List.Perm.refl _, rfl⟩
  refine ⟨_, ⟨_, rewrite_separator, rfl, hwrites⟩, rewrite_separator, by decide, fun h => ?_⟩
  have hclean := (settable_of_updated h.query).clean (bytes "source", bytes "a&b=c")
    (by rw [args_captured]; simp)
  exact hclean.sep (by decide)

open Sample in
theorem apply_sets_source :
    host.Works ∧ ((∀ s result, rewrite [rule] (request "/api/a") = .ok s →
        Applies host plainCaseTable [rule] (request "/api/a") result →
          OnlyOwn plainCaseTable (request "/api/a") s result) ∧
      ∀ a b, Applies host plainCaseTable [rule] (request "/api/a") a →
        Applies host plainCaseTable [rule] (request "/api/a") b → a = b) := by
  refine ⟨host_works, (apply_onlyOwn_iff host_works plainCaseTable [rule] (request "/api/a")).mpr ?_⟩
  intro s hs _
  obtain rfl : captured "a" = s := Except.ok.inj (rewrite_plain.symm.trans hs)
  have hnone (name : GoString) : httpValues plainCaseTable (captured "a").vars name = [] := by
    rw [httpValues, httpHeaders_captured]
    rfl
  refine ⟨⟨?_, ?_⟩, ?_, ⟨?_, ?_⟩, ?_, ?_, ?_, ?_⟩
  · rw [args_captured]
    decide
  · rw [args_captured]
    intro kv hkv
    rw [List.mem_singleton.mp hkv]
    exact ⟨by decide, rfl, by decide⟩
  · rw [args_captured]
    intro kv hkv kv' hkv' _ _
    rw [List.mem_singleton.mp hkv, List.mem_singleton.mp hkv']
  · rw [cookies_captured]
    simp
  · rw [cookies_captured]
    simp
  · intro base _ kv hkv
    rw [cookies_captured] at hkv
    cases hkv
  · intro base hbase base' hbase'
    rw [cookieBases, if_pos (hnone _), List.mem_singleton] at hbase hbase'
    rw [hbase, hbase']
  · intro _ value hvalue
    rw [hnone] at hvalue
    cases hvalue
  · intro name _ _
    refine ⟨fun v hv => ?_, fun _ o ho o' ho' => ?_⟩
    · rw [hnone] at hv
      cases hv
    · rw [mem_valuesFor] at ho ho'
      have h := List.mem_singleton.mp ho
      have h' := List.mem_singleton.mp ho'
      exact (congrArg Prod.snd h).trans (congrArg Prod.snd h').symm

end Higress.NginxRewrite
