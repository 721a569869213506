import Higress.AiCache.CacheHit
import Higress.AiCache.Streaming
import Higress.AiHistory.StreamedAnswer
import Higress.AiHistory.Window
import Higress.AiProxy.ClaudeConservation
import Higress.AiProxy.EventStreamMessages
import Higress.AiProxy.ModelMapping
import Higress.AiProxy.QwenStream
import Higress.AiProxy.Restoration
import Higress.AiProxy.Retry
import Higress.AiProxy.StreamCuts
import Higress.AiSecurityGuard.Coverage
import Higress.AiSecurityGuard.RiskEvaluation
import Higress.ApiWorkflow.Conditional
import Higress.ApiWorkflow.Independence
import Higress.Cors.Config
import Higress.GeoIp.RangeToCidr
import Higress.Ingress.SecretConfigMgr
import Higress.Ingress.SharedWeights
import Higress.Ingress.TemplateProcessor
import Higress.LoadBalancer.LeastRequest
import Higress.LoadBalancer.Selection
import Higress.Masking.Inspection
import Higress.Masking.LeftmostLongest
import Higress.Mcp.AutoSafety
import Higress.Mcp.ClassificationGrammar
import Higress.Mcp.Request
import Higress.Mcp.SessionRegistry
import Higress.Mcp.Sse
import Higress.NginxRewrite.Variables
import Higress.Picker.Feedback
import Higress.Picker.Growth
import Higress.Picker.Snapshot
import Higress.Picker.SpanGrammar
import Higress.PluginRelease.Conformance
import Higress.RateLimit.FixedWindow
import Higress.Registry.ConsulWatcher
import Higress.Registry.McpServerWatcher
import Higress.Registry.NacosWatcher
import Higress.Registry.ProxyPorts
import Higress.Registry.ZookeeperWatcher
import Higress.TextSplitter.MergeSplits
import Higress.TrafficTag.Parse
import Higress.Transformer.Handle
import Higress.Wasm.HmacApisixCoverage
import Higress.Wasm.JsonBody
import Higress.Wasm.PathUtil
import Higress.WasmCpp.BasicAuth
import Higress.WasmCpp.HmacCoverage
import Higress.WasmCpp.KeyAuth
import Higress.WasmCpp.ModelRouter
import Higress.WasmCpp.OAuth
import Higress.WasmCpp.PercentEncoding
import Higress.WasmCpp.RequestBlock
import Higress.WasmCpp.TokenBucket
