import Ability.Expression.Token
import Ability.Json.Reader

/-! Everything that compiling and running elements can fail with, and the texts shown for it. -/

namespace Ability

inductive EngineError
  | missingKey (key : String)
  | invalidType (key expected : String)
  | invalidConfig (reason : String)
  | unknownCondition (id : String)
  | unknownEffect (id : String)
  | unknownExecutor (id : String)
  | chainNotFound (id : String)
  | emptyChain (context : String)
  | expression (text : String) (fault : Expression.Fault)
  | unresolvedPlaceholder (name : String)
  | dataMismatch (type : String)
  | effectFailed (reason : String)

namespace EngineError

def message : EngineError → String
  | missingKey key => "配置缺失: " ++ key
  | invalidType key expected => "配置类型错误: " ++ key ++ " 期望 " ++ expected
  | invalidConfig reason => "配置无效: " ++ reason
  | unknownCondition id => "未知条件类型: " ++ id
  | unknownEffect id => "未知效果类型: " ++ id
  | unknownExecutor id => "未知链执行器: " ++ id
  | chainNotFound id => "效果链未找到: " ++ id
  | emptyChain context => "效果链没有可用组件: " ++ context
  | expression text fault => "表达式求值失败: " ++ text ++ " (" ++ fault.message ++ ")"
  | unresolvedPlaceholder name => "占位符未解析: %" ++ name ++ "%"
  | dataMismatch type => "编译数据类型不匹配: " ++ type
  | effectFailed reason => "效果执行失败: " ++ reason

end EngineError

end Ability
